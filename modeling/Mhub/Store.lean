-- SUMMARY: The session store (`store.go`, `memstore.go`): keys, the in-memory map, and which calls the persistence hooks make.
import Mathlib.Data.List.AList
import Mathlib.Data.Nat.Digits.Defs
import Mhub.Proto

/-!
# Session stores

A `MemoryStore` is a map from keys to messages. The hooks `persistInbound` and
`persistOutbound` make at most one call on the store of their connection; they are
given here as the call they make, because calling anything on a missing store is
a nil dereference, which is the caller's business.
-/

structure MemoryStore where
  messages : AList (fun _ : GoString => Message)
  opened : Bool

namespace MemoryStore

def newMemoryStore : MemoryStore := ⟨∅, false⟩

def put (this : MemoryStore) (key : GoString) (m : Message) : MemoryStore :=
  { this with messages := this.messages.insert key m }

def get (this : MemoryStore) (key : GoString) : Option Message := this.messages.lookup key

/-- Go ranges over a map in any order: `keys` is a possible result of `All`. -/
def IsAll (this : MemoryStore) (keys : List GoString) : Prop := keys.Perm this.messages.keys

instance (this : MemoryStore) (keys : List GoString) : Decidable (this.IsAll keys) :=
  inferInstanceAs (Decidable (List.Perm _ _))

def del (this : MemoryStore) (key : GoString) : MemoryStore :=
  { this with messages := this.messages.erase key }

def close (this : MemoryStore) : MemoryStore := { this with opened := false }

def reset (this : MemoryStore) : MemoryStore := { this with messages := ∅ }

variable (this : MemoryStore) {key key' : GoString} (m : Message)

@[simp] theorem get_put : (this.put key m).get key = some m := AList.lookup_insert ..

theorem get_put_of_ne (h : key' ≠ key) : (this.put key m).get key' = this.get key' :=
  AList.lookup_insert_ne h

@[simp] theorem get_del : (this.del key).get key = none := AList.lookup_erase ..

theorem get_del_of_ne (h : key' ≠ key) : (this.del key).get key' = this.get key' :=
  AList.lookup_erase_ne h

@[simp] theorem get_close : this.close.get key = this.get key := rfl

@[simp] theorem get_reset : this.reset.get key = none := rfl

@[simp] theorem get_newMemoryStore : newMemoryStore.get key = none := rfl

end MemoryStore

/-! ## Keys -/

/-- The decimal digits of a number, as `%d` prints them. -/
def decimal (n : Nat) : GoString :=
  if n = 0 then [0x30] else (Nat.digits 10 n).reverse.map fun d => (0x30 + d).toUInt8

def iboundMid2key (mid : UInt16) : GoString := str "i." ++ decimal mid.toNat

def oboundMid2key (mid : UInt16) : GoString := str "o." ++ decimal mid.toNat

/-- The number is read back from its digits. -/
theorem ofDigits_decimal (n : Nat) :
    Nat.ofDigits 10 ((decimal n).reverse.map fun b => b.toNat - 0x30) = n := by
  unfold decimal
  split
  · next h => simp [h]
  · rw [← List.map_reverse, List.reverse_reverse, List.map_map]
    have hdigits : (Nat.digits 10 n).map ((fun b : UInt8 => b.toNat - 0x30) ∘ fun d : Nat =>
        (0x30 + d).toUInt8) = Nat.digits 10 n := by
      refine List.map_congr_left (g := id) (fun d hd => ?_) |>.trans (List.map_id _)
      have hlt : d < 10 := Nat.digits_lt_base (by decide) hd
      simp only [Function.comp_apply, Nat.toUInt8_eq, UInt8.toNat_ofNat', id]
      omega
    rw [hdigits, Nat.ofDigits_digits]

theorem decimal_injective : Function.Injective decimal := by
  intro n m h
  rw [← ofDigits_decimal n, h, ofDigits_decimal]

theorem iboundMid2key_inj {a b : UInt16} : iboundMid2key a = iboundMid2key b ↔ a = b := by
  simp [iboundMid2key, decimal_injective.eq_iff, UInt16.toNat_inj]

theorem oboundMid2key_inj {a b : UInt16} : oboundMid2key a = oboundMid2key b ↔ a = b := by
  simp [oboundMid2key, decimal_injective.eq_iff, UInt16.toNat_inj]

/-- The two directions do not share keys. -/
theorem iboundMid2key_ne_oboundMid2key (a b : UInt16) : iboundMid2key a ≠ oboundMid2key b := by
  intro h
  have hpre : str "i." = str "o." := List.append_inj_left h (by decide +kernel)
  exact absurd hpre (by decide +kernel)

/-! ## Persistence hooks -/

/-- A call on a store. -/
inductive StoreCall where
  | put (key : GoString) (m : Message)
  | del (key : GoString)
  deriving DecidableEq, Repr

def MemoryStore.call (this : MemoryStore) : StoreCall → MemoryStore
  | .put key m => this.put key m
  | .del key => this.del key

/-- What a store holds after a call. -/
def StoreCall.apply (f : GoString → Option Message) : StoreCall → GoString → Option Message
  | .put key m => Function.update f key (some m)
  | .del key => Function.update f key none

def StoreCall.key : StoreCall → GoString
  | .put key _ => key
  | .del key => key

theorem StoreCall.apply_of_ne {f : GoString → Option Message} {call : StoreCall} {key : GoString}
    (h : key ≠ call.key) : call.apply f key = f key := by
  cases call <;> exact Function.update_of_ne h ..

theorem MemoryStore.get_call (this : MemoryStore) (call : StoreCall) :
    (this.call call).get = call.apply this.get := by
  funext key'
  cases call with
  | put key m =>
    by_cases hk : key' = key
    · subst hk
      simp [call, StoreCall.apply]
    · simp [call, StoreCall.apply, get_put_of_ne _ _ hk, hk]
  | del key =>
    by_cases hk : key' = key
    · subst hk
      simp [call, StoreCall.apply]
    · simp [call, StoreCall.apply, get_del_of_ne _ hk, hk]

/-- Govern which outgoing messages are persisted. -/
def persistOutbound : Message → Option StoreCall
  | .publish m =>
    -- store in obound until PubAck received
    if m.qosLevel = .atLeastOnce then some (.put (oboundMid2key m.messageId) (.publish m)) else none
  | .pubAck m => some (.del (iboundMid2key m.messageId))
  | _ => none

/-- Govern which incoming messages are persisted. -/
def persistInbound : Message → Option StoreCall
  | .publish m =>
    -- store it in ibound until PubAck sent
    if m.qosLevel = .atLeastOnce then some (.put (iboundMid2key m.messageId) (.publish m)) else none
  | .pubAck m => some (.del (oboundMid2key m.messageId))
  | _ => none

theorem persistOutbound_eq_some {m : Message} {call : StoreCall}
    (h : persistOutbound m = some call) :
    (∃ p, m = .publish p ∧ p.qosLevel = .atLeastOnce ∧
      call = .put (oboundMid2key p.messageId) (.publish p)) ∨
    ∃ a, m = .pubAck a ∧ call = .del (iboundMid2key a.messageId) := by
  cases m with
  | publish p =>
    simp only [persistOutbound] at h
    split at h <;> cases h
    exact .inl ⟨p, rfl, ‹_›, rfl⟩
  | pubAck a =>
    cases h
    exact .inr ⟨a, rfl, rfl⟩
  | _ => cases h

theorem persistInbound_eq_some {p : Publish} {call : StoreCall}
    (h : persistInbound (.publish p) = some call) :
    p.qosLevel = .atLeastOnce ∧ call = .put (iboundMid2key p.messageId) (.publish p) := by
  simp only [persistInbound] at h
  split at h <;> cases h
  exact ⟨‹_›, rfl⟩

/-- The PUBLISH that is to be stored until it is acknowledged. -/
def Message.atLeastOnce : Message → Option Publish
  | .publish m => if m.qosLevel = .atLeastOnce then some m else none
  | _ => none

/-- `persistInbound` does not touch what was sent out. -/
theorem persistInbound_key {p : Publish} {call : StoreCall}
    (h : persistInbound (.publish p) = some call) (n : UInt16) : oboundMid2key n ≠ call.key := by
  obtain ⟨-, rfl⟩ := persistInbound_eq_some h
  exact (iboundMid2key_ne_oboundMid2key _ _).symm

theorem persistOutbound_of_atLeastOnce {m : Message} {p : Publish} (h : m.atLeastOnce = some p) :
    m = .publish p ∧ persistOutbound m = some (.put (oboundMid2key p.messageId) (.publish p)) := by
  cases m with
  | publish p' =>
    simp only [Message.atLeastOnce] at h
    split at h <;> cases h
    exact ⟨rfl, if_pos ‹_›⟩
  | _ => cases h

/-- Apart from QoS 1 PUBLISH messages, `persistOutbound` does not either. -/
theorem persistOutbound_key {m : Message} {call : StoreCall} (h : persistOutbound m = some call)
    (hm : m.atLeastOnce = none) (n : UInt16) : oboundMid2key n ≠ call.key := by
  obtain ⟨p, rfl, hq, -⟩ | ⟨a, -, rfl⟩ := persistOutbound_eq_some h
  · simp [Message.atLeastOnce, hq] at hm
  · exact (iboundMid2key_ne_oboundMid2key _ _).symm

/-! ## What a store can hold -/

/-- Every entry is a QoS 1 PUBLISH under a key of its own message id. -/
def MemoryStore.Kept (this : MemoryStore) : Prop :=
  ∀ key m, this.get key = some m → ∃ p : Publish, m = .publish p ∧ p.qosLevel = .atLeastOnce ∧
    (key = iboundMid2key p.messageId ∨ key = oboundMid2key p.messageId)

namespace MemoryStore.Kept

variable {this : MemoryStore}

theorem of_get_le {this' : MemoryStore} (h : this.Kept)
    (hget : ∀ key m, this'.get key = some m → this.get key = some m) : this'.Kept :=
  fun key m hm => h key m (hget key m hm)

theorem new : newMemoryStore.Kept := fun _ _ h => nomatch h

theorem reset : this.reset.Kept := fun _ _ h => nomatch h

theorem del (h : this.Kept) (key : GoString) : (this.del key).Kept := by
  refine h.of_get_le fun key' m hm => ?_
  by_cases hk : key' = key
  · subst hk
    simp at hm
  · rwa [get_del_of_ne _ hk] at hm

theorem put {key : GoString} {p : Publish} (h : this.Kept) (hq : p.qosLevel = .atLeastOnce)
    (hkey : key = iboundMid2key p.messageId ∨ key = oboundMid2key p.messageId) :
    (this.put key (.publish p)).Kept := by
  intro key' m hm
  by_cases hk : key' = key
  · subst hk
    rw [get_put] at hm
    cases hm
    exact ⟨p, rfl, hq, hkey⟩
  · rw [get_put_of_ne _ _ hk] at hm
    exact h key' m hm

theorem outbound {m : Message} {call : StoreCall} (h : this.Kept)
    (hm : persistOutbound m = some call) : (this.call call).Kept := by
  obtain ⟨p, -, hq, rfl⟩ | ⟨a, -, rfl⟩ := persistOutbound_eq_some hm
  · exact h.put hq (.inr rfl)
  · exact h.del _

theorem inbound {p : Publish} {call : StoreCall} (h : this.Kept)
    (hp : persistInbound (.publish p) = some call) : (this.call call).Kept := by
  obtain ⟨hq, rfl⟩ := persistInbound_eq_some hp
  exact h.put hq (.inl rfl)

end MemoryStore.Kept
