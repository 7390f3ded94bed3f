-- SUMMARY: The keep-alive deadline on a real-time clock: after which refreshes of a connection its heartbeat can kick it early.
import Mathlib.Algebra.Order.Archimedean.Real.Basic
import Mathlib.Data.Rat.Floor
import Mathlib.Tactic.Linarith
import Mhub.Broker.Step

/-!
# The keep-alive deadline

A connection keeps the time of its last refresh in whole seconds, and `heartbeat`
compares the current time, in whole seconds too, with a deadline 1.5 times the
keep-alive timer later. The deadline is cut to whole seconds once more.

Times are real: they are taken from any ordered field with a floor. If the timer is an
even number of seconds, nothing is cut off the deadline and a client is never kicked
early. If it is odd, half a second is, and the client is kicked early exactly if its
refresh came in the second half of a second.
-/

variable {R : Type*} [Field R] [LinearOrder R] [FloorRing R]

/-- `time.Now().Unix()`. -/
def unix (now : R) : Int := ⌊now⌋

/-- The conversion `int64(x)`, which rounds towards zero. -/
def toInt64 (x : ℚ) : Int := if 0 ≤ x then ⌊x⌋ else ⌈x⌉

/-- 1.5 times the timer, the tolerance of the heartbeat. -/
def deadline (lastOpTime : Int) (keepAliveTimer : UInt16) : Int :=
  toInt64 (lastOpTime + keepAliveTimer.toNat * (3 / 2))

def overIdle (lastOpTime : Int) (keepAliveTimer : UInt16) (now : R) : Int :=
  unix now - deadline lastOpTime keepAliveTimer

/-! ## Schedules -/

/-- What happens to a connection and its heartbeat, and when. -/
inductive TimedEvent (R : Type*) where
  | refreshOpTime (now : R)
  | tick (now : R)

/-- `this.lastOpTime` after one more event. -/
def TimedEvent.setOpTime (lastOpTime : Int) : TimedEvent R → Int
  | .refreshOpTime now => unix now
  | .tick _ => lastOpTime

/-- `this.lastOpTime` after a schedule. A new connection begins with the current time. -/
def lastOpTime (accepted : R) (sched : List (TimedEvent R)) : Int :=
  sched.foldl TimedEvent.setOpTime (unix accepted)

/-- The time of the last refresh. -/
def lastRefresh (accepted : R) (sched : List (TimedEvent R)) : R :=
  sched.foldl (fun last e => match e with | .refreshOpTime now => now | .tick _ => last) accepted

theorem lastOpTime_eq (accepted : R) (sched : List (TimedEvent R)) :
    lastOpTime accepted sched = unix (lastRefresh accepted sched) := by
  induction sched generalizing accepted with
  | nil => rfl
  | cons e sched ih =>
    cases e with
    | refreshOpTime now => exact ih now
    | tick now => exact ih accepted

/-! ## What is cut off -/

/-- Half a second is cut off, or added before 1970. -/
theorem toInt64_add_half (n : Int) : toInt64 (n + 1 / 2) = if 0 ≤ n then n else n + 1 := by
  unfold toInt64
  by_cases hn : 0 ≤ n
  · have hx : (0 : ℚ) ≤ n + 1 / 2 := by positivity
    rw [if_pos hx, if_pos hn, Int.floor_eq_iff]
    constructor <;> linarith
  · have hle : (n : ℚ) ≤ -1 := by exact_mod_cast (by omega : n ≤ -1)
    have hx : ¬ (0 : ℚ) ≤ n + 1 / 2 := by linarith
    rw [if_neg hx, if_neg hn, Int.ceil_eq_iff]
    push_cast
    constructor <;> linarith

theorem deadline_even {k : UInt16} {j : Nat} (hk : k.toNat = j + j) (l : Int) :
    deadline l k = l + 3 * j := by
  have hx : (l : ℚ) + k.toNat * (3 / 2) = ((l + 3 * j : Int) : ℚ) := by
    rw [hk]
    push_cast
    ring
  rw [deadline, hx, toInt64, Int.floor_intCast, Int.ceil_intCast, ite_self]

theorem deadline_odd {k : UInt16} {j : Nat} (hk : k.toNat = 2 * j + 1) (l : Int) :
    deadline l k = if 0 ≤ l + 3 * j + 1 then l + 3 * j + 1 else l + 3 * j + 1 + 1 := by
  have hx : (l : ℚ) + k.toNat * (3 / 2) = ((l + 3 * j + 1 : Int) : ℚ) + 1 / 2 := by
    rw [hk]
    push_cast
    ring
  rw [deadline, hx, toInt64_add_half]

/-- No time up to `bound` is past the deadline if `bound` is not. -/
theorem forall_overIdle_le_iff {bound : R} {l : Int} {k : UInt16} :
    (∀ now, now ≤ bound → overIdle l k now ≤ 0) ↔ bound < deadline l k + 1 := by
  have hiff (now : R) : overIdle l k now ≤ 0 ↔ now < deadline l k + 1 := by
    rw [overIdle, unix, sub_nonpos, ← Int.lt_add_one_iff, Int.floor_lt]
    push_cast
    rfl
  simp only [hiff]
  exact ⟨fun h => h bound le_rfl, fun h now hnow => hnow.trans_lt h⟩

/-- Nothing that matters is cut off after a refresh at `l`: the timer is even, or the
refresh came in the first half of a second, or the deadline is before 1970. -/
def Exact (k : UInt16) (l : R) : Prop :=
  Even k.toNat ∨ Int.fract l < 1 / 2 ∨ 2 * unix l + 3 * k.toNat < 0

theorem add_lt_deadline_iff [IsStrictOrderedRing R] (k : UInt16) (l : R) :
    l + k.toNat * (3 / 2) < deadline (unix l) k + 1 ↔ Exact k l := by
  have hlt : l < unix l + 1 := Int.lt_floor_add_one l
  have hfract : Int.fract l < 1 / 2 ↔ l < unix l + 1 / 2 := by
    rw [← Int.self_sub_floor, sub_lt_iff_lt_add']
    rfl
  obtain ⟨j, hj⟩ | ⟨j, hj⟩ := Nat.even_or_odd k.toNat
  · refine iff_of_true ?_ (.inl ⟨j, hj⟩)
    rw [deadline_even hj, hj]
    push_cast
    linarith
  · have hodd : ¬ Even k.toNat := Nat.not_even_iff_odd.2 ⟨j, hj⟩
    rw [deadline_odd hj, Exact, hfract, or_iff_right hodd, hj]
    split
    · next hpos =>
      have hneg : ¬ 2 * unix l + 3 * (2 * j + 1 : Nat) < 0 := by omega
      simp only [hneg, or_false]
      push_cast
      constructor <;> intro h <;> linarith
    · next hneg =>
      refine iff_of_true ?_ (.inr (by omega))
      push_cast
      linarith

/-! ## The heartbeat -/

/-- At a tick the heartbeat of a live connection waits for the next one exactly if the
client is not over idle. -/
theorem exec_tick_iff {env : Env} {s : State} {t : Tid} {c : ConnId} {b : Bool}
    (halive : (s.conns c).alive = true) :
    exec env s t (.tick b) (.heartbeatLoop c) = some (s, .push [.heartbeatLoop c]) ↔
      b = false := by
  cases b <;> simp [exec, halive]

/-- Up to 1.5 times the timer after the last refresh no tick makes the heartbeat queue a
DISCONNECT, exactly if nothing is cut off. -/
theorem never_early_iff [IsStrictOrderedRing R] (k : UInt16) (accepted : R)
    (sched : List (TimedEvent R)) :
    (∀ now, now - lastRefresh accepted sched ≤ k.toNat * (3 / 2) → ∀ env s t c,
      exec env s t (.tick (0 < overIdle (lastOpTime accepted sched) k now)) (.heartbeatLoop c) =
        some (s, .push [.heartbeatLoop c])) ↔
      Exact k (lastRefresh accepted sched) := by
  rw [← add_lt_deadline_iff, ← forall_overIdle_le_iff, lastOpTime_eq]
  refine forall_congr' fun now => ?_
  rw [sub_le_iff_le_add']
  refine imp_congr_right fun _ => ?_
  constructor
  · intro h
    have hidle := (exec_tick_iff rfl).1 (h ⟨{}, id⟩ (init ⟨{}, id⟩) (.heartbeat 0 0) 0)
    simpa using hidle
  · intro h env s t c
    simp [exec, h]

theorem never_early_iff_minute :
    lastRefresh (0 : ℚ) [.refreshOpTime (9 / 10)] = 9 / 10 ∧
      ∀ now, now - lastRefresh (0 : ℚ) [.refreshOpTime (9 / 10)] ≤ (60 : UInt16).toNat * (3 / 2) →
        ∀ env s t c,
          exec env s t (.tick (0 < overIdle (lastOpTime (0 : ℚ) [.refreshOpTime (9 / 10)]) 60 now))
            (.heartbeatLoop c) = some (s, .push [.heartbeatLoop c]) :=
  ⟨rfl, (never_early_iff 60 (0 : ℚ) [.refreshOpTime (9 / 10)]).2 (.inl (by decide))⟩

/-- A client has a keep-alive timer of one second. -/
def secondTimer : List BrokerAction :=
  .accept :: sends 0 (.connect { Connect.named (str "a") with keepAliveTimer := 1 }) 10

/-- A refresh at 0.9 is kept as 0, and the deadline of 1.5 as 1. At 2.1, which is 1.2
seconds after the refresh, the heartbeat queues a DISCONNECT. -/
theorem early_kick :
    ¬ ∀ (k : UInt16), 1 ≤ k → ∀ (accepted : ℝ) (sched : List (TimedEvent ℝ)) (now : ℝ),
      now - lastRefresh accepted sched ≤ k.toNat * (3 / 2) → ∀ env acts s c j,
        Transition.run (step env) (init env) acts = some s →
        s.code (.heartbeat c j) = [.heartbeatLoop c] →
        exec env s (.heartbeat c j) (.tick (0 < overIdle (lastOpTime accepted sched) k now))
          (.heartbeatLoop c) = some (s, .push [.heartbeatLoop c]) := by
  intro h
  have heval : (Transition.run (step openEnv) (init openEnv) secondTimer).map
      (fun s => (s.code (.heartbeat 0 0), (s.conns 0).alive)) =
        some ([.heartbeatLoop 0], true) := by
    decide +kernel
  obtain ⟨s, hrun, hs⟩ := Option.map_eq_some_iff.1 heval
  obtain ⟨hcode, halive⟩ := Prod.mk.inj hs
  have hone : (1 : UInt16).toNat = 1 := rfl
  have hstays := h 1 (by decide) 0 [.refreshOpTime (9 / 10)] (21 / 10)
    (by norm_num [lastRefresh, hone]) _ _ s 0 0 hrun hcode
  rw [exec_tick_iff halive, lastOpTime_eq, overIdle] at hstays
  have hlast : unix (9 / 10 : ℝ) = 0 := by norm_num [unix, Int.floor_eq_iff]
  have hnow : unix (21 / 10 : ℝ) = 2 := by norm_num [unix, Int.floor_eq_iff]
  have hdeadline : deadline 0 1 = 1 := deadline_odd (j := 0) rfl 0
  simp [lastRefresh, hlast, hnow, hdeadline] at hstays
