/-
This file adds up load times. A time that does not fit into the counter is cut to the greatest that fits,
but the sum of the cut times is not: it wraps around, and the total falls where that happens.
-/
import ImportMeter.Timing.TotalTimer
import Mathlib.Algebra.Ring.Nat
import Mathlib.Data.List.Induction

namespace ImportMeter

namespace TotalTimer

/-- The greatest time that fits into the counter. -/
def greatest : Nat := UInt64.size - 1

theorem greatest_eq : greatest = 2 ^ 64 - 1 := rfl

theorem greatest_add_one : greatest + 1 = 2 ^ 64 := rfl

/-- The sum of times, each of them cut to the greatest that fits. -/
def cutSum (times : List Nat) : Nat := (times.map (min · greatest)).sum

@[simp] theorem cutSum_nil : cutSum [] = 0 := rfl

@[simp] theorem cutSum_cons (time : Nat) (times : List Nat) :
    cutSum (time :: times) = min time greatest + cutSum times := rfl

/-- Where cut times fit into the counter together, none of them was cut too short. -/
theorem min_cutSum (times : List Nat) : min (cutSum times) greatest = min times.sum greatest := by
  induction times with
  | nil => rfl
  | cons time times inductionHypothesis =>
      rw [cutSum_cons, List.sum_cons]
      omega

theorem toNat_saturate (time : Nat) : (saturate time).toNat = min time greatest := by
  have size : Nat.pow 2 64 = greatest + 1 := rfl
  have fits : ∀ number, number ≤ greatest → (UInt64.ofNat number).toNat = number := by
    intro number atMost
    apply UInt64.toNat_ofNat_of_lt'
    show number < greatest + 1
    omega
  rw [saturate, size]
  split
  · rw [fits time (by omega)]
    omega
  · rw [fits _ (by omega)]
    omega

theorem nanoseconds_le (timer : TotalTimer) : timer.nanoseconds.toNat ≤ greatest :=
  Nat.le_of_lt_succ timer.nanoseconds.toNat_lt

theorem nanoseconds_add (timer : TotalTimer) (time : Nat) :
    (timer.add time).nanoseconds.toNat =
      (timer.nanoseconds.toNat + min time greatest) % (greatest + 1) := by
  rw [add, UInt64.toNat_add, toNat_saturate]
  rfl

theorem loads_add (timer : TotalTimer) (time : Nat) :
    (timer.add time).loads.toNat = (timer.loads.toNat + 1) % (greatest + 1) := by
  rw [add, UInt64.toNat_add]
  rfl

/-- A load lowers the total if the counter cannot hold the two together. -/
theorem add_lt_iff (timer : TotalTimer) (time : Nat) :
    (timer.add time).nanoseconds.toNat < timer.nanoseconds.toNat ↔
      greatest < timer.nanoseconds.toNat + min time greatest := by
  have before := timer.nanoseconds_le
  rw [nanoseconds_add]
  by_cases fits : timer.nanoseconds.toNat + min time greatest ≤ greatest
  · rw [Nat.mod_eq_of_lt (by omega)]
    omega
  · rw [Nat.mod_eq_sub_mod (by omega), Nat.mod_eq_of_lt (by omega)]
    omega

/-- Both counters wrap around, and nothing but these counters changes. -/
theorem foldl_add (timer : TotalTimer) (times : List Nat) :
    (times.foldl add timer).nanoseconds.toNat =
        (timer.nanoseconds.toNat + cutSum times) % (greatest + 1) ∧
      (times.foldl add timer).loads.toNat =
        (timer.loads.toNat + times.length) % (greatest + 1) ∧
      (times.foldl add timer).reportClaimed = timer.reportClaimed := by
  induction times generalizing timer with
  | nil =>
      have total := timer.nanoseconds_le
      have loads : timer.loads.toNat < greatest + 1 := timer.loads.toNat_lt
      refine ⟨?_, ?_, rfl⟩
      · exact (Nat.mod_eq_of_lt (Nat.lt_succ_of_le total)).symm
      · exact (Nat.mod_eq_of_lt loads).symm
  | cons time times inductionHypothesis =>
      obtain ⟨total, loads, claimed⟩ := inductionHypothesis (timer.add time)
      rw [List.foldl_cons, cutSum_cons, List.length_cons]
      refine ⟨?_, ?_, claimed⟩
      · rw [total, nanoseconds_add, Nat.mod_add_mod, Nat.add_assoc]
      · rw [loads, loads_add, Nat.mod_add_mod, Nat.add_assoc, Nat.add_comm 1]

theorem cutSum_append (front back : List Nat) :
    cutSum (front ++ back) = cutSum front + cutSum back := by
  rw [cutSum, List.map_append, List.sum_append]
  rfl

/-- The total after some loads. -/
def totalOf (times : List Nat) : Nat := (times.foldl add start).nanoseconds.toNat

theorem totalOf_eq (times : List Nat) : totalOf times = cutSum times % (greatest + 1) := by
  have total := (foldl_add start times).1
  rwa [show start.nanoseconds.toNat = 0 from rfl, Nat.zero_add] at total

theorem totalOf_concat_lt_iff (times : List Nat) (next : Nat) :
    totalOf (times ++ [next]) < totalOf times ↔ greatest < totalOf times + min next greatest := by
  rw [totalOf, List.foldl_append]
  exact add_lt_iff _ next

/-- Some load lowers the total unless the counter can hold all of them together. -/
theorem never_falls_iff (times : List Nat) :
    (∀ front next, front ++ [next] <+: times → totalOf front ≤ totalOf (front ++ [next])) ↔
      cutSum times ≤ greatest := by
  have keeps : ∀ front next, totalOf front ≤ totalOf (front ++ [next]) ↔
      totalOf front + min next greatest ≤ greatest := by
    intro front next
    rw [← Nat.not_lt, totalOf_concat_lt_iff, Nat.not_lt]
  simp only [keeps]
  constructor
  · intro each
    induction times using List.reverseRecOn with
    | nil => exact Nat.zero_le _
    | append_singleton front next inductionHypothesis =>
        have fits : cutSum front ≤ greatest := by
          apply inductionHypothesis
          intro earlier time isPrefix
          exact each earlier time (isPrefix.trans (List.prefix_append front [next]))
        have last := each front next (List.prefix_refl _)
        rw [totalOf_eq, Nat.mod_eq_of_lt (Nat.lt_succ_of_le fits)] at last
        rw [cutSum_append, cutSum_cons, cutSum_nil]
        omega
  · rintro fits front next ⟨back, rfl⟩
    rw [cutSum_append, cutSum_append, cutSum_cons, cutSum_nil] at fits
    have total := totalOf_eq front
    rw [Nat.mod_eq_of_lt (by omega)] at total
    omega

/-- The total is the sum of the cut times modulo the size of the counter. It is the sum of the times, cut
once, if the counter can hold the cut times together or they wrap around to its greatest value. A load lowers
it if the counter cannot hold the total and the load, and no load does as long as it can hold all of them. -/
theorem total_of_loads (times : List Nat) :
    let timer := times.foldl add start
    timer.nanoseconds.toNat = cutSum times % UInt64.size ∧
      timer.loads.toNat = times.length % UInt64.size ∧
      (timer.nanoseconds.toNat = min times.sum (UInt64.size - 1) ↔
        cutSum times < UInt64.size ∨ cutSum times % UInt64.size = UInt64.size - 1) ∧
      (∀ next, (timer.add next).nanoseconds.toNat < timer.nanoseconds.toNat ↔
        UInt64.size ≤ cutSum times % UInt64.size + min next (UInt64.size - 1)) ∧
      ((∀ front next, front ++ [next] <+: times →
          (front.foldl add start).nanoseconds.toNat ≤
            ((front ++ [next]).foldl add start).nanoseconds.toNat) ↔
        cutSum times < UInt64.size) := by
  intro timer
  obtain ⟨-, loads, -⟩ := foldl_add start times
  rw [show start.loads.toNat = 0 from rfl, Nat.zero_add] at loads
  have size : greatest + 1 = UInt64.size := rfl
  have total : timer.nanoseconds.toNat = cutSum times % UInt64.size := totalOf_eq times
  refine ⟨total, loads, ?_, ?_, ?_⟩
  · have same : min times.sum (UInt64.size - 1) = min (cutSum times) (UInt64.size - 1) := (min_cutSum times).symm
    rw [total, same]
    by_cases fits : cutSum times < UInt64.size
    · rw [Nat.mod_eq_of_lt fits]
      omega
    · omega
  · intro next
    rw [add_lt_iff timer next, total]
    exact Nat.succ_le_iff.symm
  · rw [← size, Nat.lt_succ_iff]
    exact never_falls_iff times

/-- One nanosecond behind the greatest time that fits takes the total back to nothing. -/
theorem total_of_loads_oneTooMany :
    (([UInt64.size - 1] : List Nat).foldl add start).nanoseconds.toNat = UInt64.size - 1 ∧
      (([UInt64.size - 1, 1] : List Nat).foldl add start).nanoseconds.toNat = 0 ∧
      min ([UInt64.size - 1, 1] : List Nat).sum (UInt64.size - 1) = UInt64.size - 1 := by
  decide +kernel

end TotalTimer

end ImportMeter
