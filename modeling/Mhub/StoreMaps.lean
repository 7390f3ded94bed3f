-- SUMMARY: The session store seen through its keys: two maps from message ids to messages, whatever the persistence hooks are called with.
import Mhub.Store

/-!
# A store as two maps

The keys of a store are strings, `i.` or `o.` and a message id in decimal. `key2mid`
reads the id back. `SessionMaps` is what the hooks use a store for: one map for each
direction, whose entries are QoS 1 PUBLISH messages under their own ids. Every sequence
of hook calls does to a new store what it does to two empty maps.
-/

/-! ## Reading a key back -/

/-- `strconv.ParseUint`, digit by digit from the most significant one: `none` at a byte
that is not a digit, and the largest value as soon as the number gets too large. -/
def parseUint (n : Nat) : GoString → Option Nat
  | [] => some n
  | b :: s =>
    if 0x30 ≤ b.toNat ∧ b.toNat ≤ 0x39 then
      let n' := n * 10 + (b.toNat - 0x30)
      if 2 ^ 64 ≤ n' then some (2 ^ 64 - 1) else parseUint n' s
    else none

/-- The number without its sign; 0 if there is an error, unless it is one of range. -/
def magnitude (s : GoString) : Nat :=
  if s = [] then 0 else (parseUint 0 s).getD 0

/-- The first result of `strconv.Atoi`. The second one, the error, is what `key2mid`
ignores. -/
def atoi (s : GoString) : Int :=
  if s.head? = some 0x2D then -(min (magnitude s.tail) (2 ^ 63) : Nat)
  else if s.head? = some 0x2B then (min (magnitude s.tail) (2 ^ 63 - 1) : Nat)
  else (min (magnitude s) (2 ^ 63 - 1) : Nat)

/-- The message id in a key. Slicing a key that is too short is a panic. -/
def key2mid (key : GoString) : Option UInt16 :=
  if 2 ≤ key.length then some (UInt16.ofInt (atoi (key.drop 2))) else none

theorem le_foldl_digits (ds : List Nat) (n : Nat) : n ≤ ds.foldl (fun n d => n * 10 + d) n := by
  induction ds generalizing n with
  | nil => exact Nat.le_refl n
  | cons d ds ih => exact Nat.le_trans (by omega) (ih (n * 10 + d))

/-- Nothing gets lost on the way to a number that is not too large. -/
theorem parseUint_digits {ds : List Nat} (hds : ∀ d ∈ ds, d < 10) {n : Nat}
    (hn : ds.foldl (fun n d => n * 10 + d) n < 2 ^ 64) :
    parseUint n (ds.map fun d => (0x30 + d).toUInt8) =
      some (ds.foldl (fun n d => n * 10 + d) n) := by
  induction ds generalizing n with
  | nil => rfl
  | cons d ds ih =>
    have hd : d < 10 := hds d List.mem_cons_self
    have hbyte : (0x30 + d).toUInt8.toNat = 0x30 + d := by
      simp only [Nat.toUInt8_eq, UInt8.toNat_ofNat']
      omega
    have hle := le_foldl_digits ds (n * 10 + d)
    rw [List.foldl_cons] at hn
    rw [List.map_cons, parseUint, hbyte, if_pos (by omega), Nat.add_sub_cancel_left,
      if_neg (by omega)]
    exact ih (fun d' hd' => hds d' (List.mem_cons_of_mem _ hd')) hn

theorem parseUint_decimal {n : Nat} (hn : n < 2 ^ 64) : parseUint 0 (decimal n) = some n := by
  unfold decimal
  split
  · next h =>
    subst h
    rfl
  · have hvalue : (Nat.digits 10 n).reverse.foldl (fun n d => n * 10 + d) 0 = n := by
      rw [List.foldl_reverse]
      refine Eq.trans ?_ (Nat.ofDigits_digits 10 n)
      rw [Nat.ofDigits_eq_foldr]
      simp [Nat.mul_comm, Nat.add_comm]
    have hds : ∀ d ∈ (Nat.digits 10 n).reverse, d < 10 := by
      intro d hd
      exact Nat.digits_lt_base (by decide) (List.mem_reverse.1 hd)
    rw [parseUint_digits hds (by omega), hvalue]

theorem magnitude_decimal {n : Nat} (hn : n < 2 ^ 64) : magnitude (decimal n) = n := by
  have hparse := parseUint_decimal hn
  unfold magnitude
  split
  · next hnil =>
    rw [hnil] at hparse
    exact Option.some.inj hparse
  · rw [hparse, Option.getD_some]

/-- What can be parsed has no sign. -/
theorem atoi_of_parseUint {s : GoString} {n : Nat} (hs : parseUint 0 s = some n) :
    atoi s = (min (magnitude s) (2 ^ 63 - 1) : Nat) := by
  have hsign {b : UInt8} (hb : b.toNat < 0x30) : s.head? ≠ some b := by
    intro hhead
    obtain ⟨s, rfl⟩ := List.head?_eq_some_iff.1 hhead
    rw [parseUint, if_neg (by omega)] at hs
    cases hs
  rw [atoi, if_neg (hsign (by decide)), if_neg (hsign (by decide))]

theorem atoi_decimal {n : Nat} (hn : n < 2 ^ 63) : atoi (decimal n) = n := by
  rw [atoi_of_parseUint (parseUint_decimal (by omega)), magnitude_decimal (by omega)]
  omega

/-- The id is read back from a key of any two bytes and the id. -/
theorem key2mid_append {sort : GoString} (hlen : sort.length = 2) (mid : UInt16) :
    key2mid (sort ++ decimal mid.toNat) = some mid := by
  have hmid : mid.toNat < 2 ^ 16 := mid.toNat_lt
  have hmod : ((mid.toNat : Int) % 2 ^ 16).toNat = mid.toNat := by omega
  rw [key2mid, if_pos (by simp [hlen]), ← hlen, List.drop_left, atoi_decimal (by omega),
    UInt16.ofInt, hmod, UInt16.ofNat_toNat]

@[simp] theorem key2mid_iboundMid2key (mid : UInt16) : key2mid (iboundMid2key mid) = some mid :=
  key2mid_append (by decide +kernel) mid

@[simp] theorem key2mid_oboundMid2key (mid : UInt16) : key2mid (oboundMid2key mid) = some mid :=
  key2mid_append (by decide +kernel) mid

/-! ## The hooks on a store -/

/-- A message of any type. The types that the broker neither queues nor keeps, such as
CONNECT and SUBSCRIBE, are `other`. -/
inductive AnyMessage where
  | message (m : Message)
  | other
  deriving DecidableEq, Repr

/-- A call of one of the two hooks. -/
inductive PersistCall where
  | inbound (m : AnyMessage)
  | outbound (m : AnyMessage)
  deriving DecidableEq, Repr

/-- What the hook does with the store; a message of another type matches no case of its
`switch`. -/
def PersistCall.storeCall : PersistCall → Option StoreCall
  | .inbound (.message m) => persistInbound m
  | .outbound (.message m) => persistOutbound m
  | .inbound .other | .outbound .other => none

namespace MemoryStore

def persist (this : MemoryStore) (k : PersistCall) : MemoryStore :=
  match k.storeCall with
  | some call => this.call call
  | none => this

def persists (this : MemoryStore) (hist : List PersistCall) : MemoryStore :=
  hist.foldl persist this

end MemoryStore

/-! ## Two maps -/

/-- The QoS 1 PUBLISH messages with the id `n`. -/
def Unacked (n : UInt16) := { p : Publish // p.qosLevel = .atLeastOnce ∧ p.messageId = n }

/-- What the hooks keep: messages that came in and messages that went out, by id. -/
structure SessionMaps where
  inbound : (n : UInt16) → Option (Unacked n)
  outbound : (n : UInt16) → Option (Unacked n)

namespace SessionMaps

def empty : SessionMaps := ⟨fun _ => none, fun _ => none⟩

/-- A QoS 1 PUBLISH is kept until its PUBACK goes the other way. -/
def persist (this : SessionMaps) : PersistCall → SessionMaps
  | .inbound (.message (.publish p)) =>
    if hq : p.qosLevel = .atLeastOnce then
      { this with inbound := Function.update this.inbound p.messageId (some ⟨p, hq, rfl⟩) }
    else this
  | .inbound (.message (.pubAck a)) =>
    { this with outbound := Function.update this.outbound a.messageId none }
  | .outbound (.message (.publish p)) =>
    if hq : p.qosLevel = .atLeastOnce then
      { this with outbound := Function.update this.outbound p.messageId (some ⟨p, hq, rfl⟩) }
    else this
  | .outbound (.message (.pubAck a)) =>
    { this with inbound := Function.update this.inbound a.messageId none }
  | _ => this

def persists (this : SessionMaps) (hist : List PersistCall) : SessionMaps :=
  hist.foldl persist this

end SessionMaps

/-- The message as a store has it. -/
def Unacked.message {n : UInt16} (p : Unacked n) : Message := .publish p.1

/-- The store is the disjoint union of the two maps. -/
structure Represents (store : MemoryStore) (maps : SessionMaps) : Prop where
  inbound : ∀ n, store.get (iboundMid2key n) = (maps.inbound n).map Unacked.message
  outbound : ∀ n, store.get (oboundMid2key n) = (maps.outbound n).map Unacked.message
  only : ∀ key m, store.get key = some m → ∃ n, key = iboundMid2key n ∨ key = oboundMid2key n

namespace Represents

variable {store store' : MemoryStore} {maps : SessionMaps}

theorem empty : Represents MemoryStore.newMemoryStore SessionMaps.empty where
  inbound _ := rfl
  outbound _ := rfl
  only _ _ h := by cases h

theorem setInbound (h : Represents store maps) {n : UInt16} {e : Option (Unacked n)}
    (hget : store'.get =
      Function.update store.get (iboundMid2key n) (e.map Unacked.message)) :
    Represents store' { maps with inbound := Function.update maps.inbound n e } where
  inbound n' := by
    rw [hget]
    by_cases hn : n' = n
    · subst hn
      simp
    · simp [Function.update_of_ne, hn, iboundMid2key_inj, h.inbound]
  outbound n' := by
    rw [hget, Function.update_of_ne (iboundMid2key_ne_oboundMid2key _ _).symm, h.outbound]
  only key m hm := by
    by_cases hkey : key = iboundMid2key n
    · exact ⟨n, .inl hkey⟩
    · rw [hget, Function.update_of_ne hkey] at hm
      exact h.only key m hm

theorem setOutbound (h : Represents store maps) {n : UInt16} {e : Option (Unacked n)}
    (hget : store'.get =
      Function.update store.get (oboundMid2key n) (e.map Unacked.message)) :
    Represents store' { maps with outbound := Function.update maps.outbound n e } where
  inbound n' := by
    rw [hget, Function.update_of_ne (iboundMid2key_ne_oboundMid2key _ _), h.inbound]
  outbound n' := by
    rw [hget]
    by_cases hn : n' = n
    · subst hn
      simp
    · simp [Function.update_of_ne, hn, oboundMid2key_inj, h.outbound]
  only key m hm := by
    by_cases hkey : key = oboundMid2key n
    · exact ⟨n, .inr hkey⟩
    · rw [hget, Function.update_of_ne hkey] at hm
      exact h.only key m hm

/-- A hook does to the store what it does to the maps. -/
theorem persist (h : Represents store maps) (k : PersistCall) :
    Represents (store.persist k) (maps.persist k) := by
  obtain (m | _) | (m | _) := k
  · cases m with
    | publish p =>
      by_cases hq : p.qosLevel = .atLeastOnce
      · simp only [MemoryStore.persist, PersistCall.storeCall, persistInbound, SessionMaps.persist,
          if_pos hq, dif_pos hq]
        exact h.setInbound (store.get_call _)
      · simpa [MemoryStore.persist, PersistCall.storeCall, persistInbound, SessionMaps.persist, hq]
          using h
    | pubAck a => exact h.setOutbound (store.get_call (.del (oboundMid2key a.messageId)))
    | _ => exact h
  · exact h
  · cases m with
    | publish p =>
      by_cases hq : p.qosLevel = .atLeastOnce
      · simp only [MemoryStore.persist, PersistCall.storeCall, persistOutbound,
          SessionMaps.persist, if_pos hq, dif_pos hq]
        exact h.setOutbound (store.get_call _)
      · simpa [MemoryStore.persist, PersistCall.storeCall, persistOutbound, SessionMaps.persist, hq]
          using h
    | pubAck a => exact h.setInbound (store.get_call (.del (iboundMid2key a.messageId)))
    | _ => exact h
  · exact h

theorem persists (h : Represents store maps) (hist : List PersistCall) :
    Represents (store.persists hist) (maps.persists hist) := by
  induction hist generalizing store maps with
  | nil => exact h
  | cons k hist ih => exact ih (h.persist k)

/-- An entry is a QoS 1 PUBLISH under a key from which its id can be read. -/
theorem entry (h : Represents store maps) {key : GoString} {m : Message}
    (hm : store.get key = some m) :
    ∃ p, m = .publish p ∧ p.qosLevel = .atLeastOnce ∧ key2mid key = some p.messageId := by
  obtain ⟨n, rfl | rfl⟩ := h.only key m hm
  · rw [h.inbound, Option.map_eq_some_iff] at hm
    obtain ⟨⟨p, hq, rfl⟩, -, rfl⟩ := hm
    exact ⟨p, rfl, hq, key2mid_iboundMid2key _⟩
  · rw [h.outbound, Option.map_eq_some_iff] at hm
    obtain ⟨⟨p, hq, rfl⟩, -, rfl⟩ := hm
    exact ⟨p, rfl, hq, key2mid_oboundMid2key _⟩

end Represents

namespace MemoryStore

variable {this : MemoryStore} {keys : List GoString}

/-- `All` lists every key of the map once. -/
theorem IsAll.nodup (h : this.IsAll keys) : keys.Nodup := h.nodup_iff.2 this.messages.nodupKeys

theorem IsAll.mem_iff (h : this.IsAll keys) {key : GoString} :
    key ∈ keys ↔ ∃ m, this.get key = some m := by
  rw [List.Perm.mem_iff h, ← AList.mem_keys, ← AList.lookup_isSome, Option.isSome_iff_exists]
  rfl

end MemoryStore

/-- After any sequence of hook calls, a store that began empty is the disjoint union of
the two maps on which the hooks act side by side. `All` lists its keys, each once, and
under each of them is a QoS 1 PUBLISH with the id that is read from the key. -/
theorem store_is_two_maps (hist : List PersistCall) :
    Represents (MemoryStore.newMemoryStore.persists hist) (SessionMaps.empty.persists hist) ∧
      ∀ keys, (MemoryStore.newMemoryStore.persists hist).IsAll keys →
        keys.Nodup ∧
        (∀ key, key ∈ keys ↔
          ∃ m, (MemoryStore.newMemoryStore.persists hist).get key = some m) ∧
        ∀ key ∈ keys, ∃ p,
          (MemoryStore.newMemoryStore.persists hist).get key = some (.publish p) ∧
          p.qosLevel = .atLeastOnce ∧ key2mid key = some p.messageId := by
  have hrep := Represents.empty.persists hist
  refine ⟨hrep, fun keys hall => ⟨hall.nodup, fun _ => hall.mem_iff, fun key hkey => ?_⟩⟩
  obtain ⟨m, hm⟩ := hall.mem_iff.1 hkey
  obtain ⟨p, rfl, hq, hmid⟩ := hrep.entry hm
  exact ⟨p, hm, hq, hmid⟩
