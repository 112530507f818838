/-
This file says when a list of attempts succeeds, and when two attempts end alike.
-/
import Mathlib.Data.List.Forall2

namespace ImportMeter

variable {ε α β : Type} {attempt : α → Except ε β} {items : List α} {results : List β}

/-- What belongs to a list in two parts has two parts. -/
theorem forall₂_append_left {γ δ : Type} {relates : γ → δ → Prop} {front behind : List γ} {others : List δ}
    (all : List.Forall₂ relates (front ++ behind) others) :
    ∃ first second, others = first ++ second ∧ List.Forall₂ relates front first ∧
      List.Forall₂ relates behind second := by
  induction front generalizing others with
  | nil => exact ⟨[], others, rfl, .nil, all⟩
  | cons item front inductionHypothesis =>
      obtain ⟨head, tail, isFirst, rest, rfl⟩ := List.forall₂_cons_left_iff.mp all
      obtain ⟨first, second, rfl, isFront, isBehind⟩ := inductionHypothesis rest
      exact ⟨head :: first, second, rfl, .cons isFirst isFront, isBehind⟩

theorem exists_left_of_forall₂ {γ δ : Type} {relates : γ → δ → Prop} {firsts : List γ} {seconds : List δ}
    {second : δ} (all : List.Forall₂ relates firsts seconds) (member : second ∈ seconds) :
    ∃ first ∈ firsts, relates first second := by
  induction all with
  | nil => cases member
  | cons related _ inductionHypothesis =>
      rcases List.mem_cons.mp member with rfl | inRest
      · exact ⟨_, List.mem_cons_self, related⟩
      · obtain ⟨first, inside, isRelated⟩ := inductionHypothesis inRest
        exact ⟨first, List.mem_cons_of_mem _ inside, isRelated⟩

theorem toOption_eq_some_iff {tried : Except ε α} {value : α} :
    tried.toOption = some value ↔ tried = .ok value := by
  cases tried with
  | error fault => exact ⟨nofun, nofun⟩
  | ok other => simp [Except.toOption]

/-- Two attempts in a row succeed if both do. -/
theorem bind_eq_ok_iff {first : Except ε α} {second : α → Except ε β} {result : β} :
    first >>= second = .ok result ↔ ∃ value, first = .ok value ∧ second value = .ok result := by
  cases first with
  | error fault => exact ⟨nofun, fun ⟨_, isOk, _⟩ => nomatch isOk⟩
  | ok value => exact ⟨fun both => ⟨value, rfl, both⟩, fun ⟨_, isOk, both⟩ => Except.ok.inj isOk ▸ both⟩

/-- All attempts succeed, each with its own result. -/
theorem mapM_eq_ok_iff :
    items.mapM attempt = .ok results ↔
      List.Forall₂ (fun item result => attempt item = .ok result) items results := by
  induction items generalizing results with
  | nil =>
      rw [List.mapM_nil, List.forall₂_nil_left_iff]
      exact ⟨fun same => (Except.ok.inj same).symm, fun none => none ▸ rfl⟩
  | cons item items inductionHypothesis =>
      rw [List.mapM_cons]
      cases first : attempt item with
      | error fault =>
          refine ⟨nofun, fun all => ?_⟩
          obtain ⟨result, _, isFirst, _⟩ := List.forall₂_cons_left_iff.mp all
          rw [first] at isFirst
          cases isFirst
      | ok result =>
          cases others : items.mapM attempt with
          | error fault =>
              refine ⟨nofun, fun all => ?_⟩
              obtain ⟨_, rest, _, isRest, _⟩ := List.forall₂_cons_left_iff.mp all
              rw [inductionHypothesis.mpr isRest] at others
              cases others
          | ok rest =>
              constructor
              · rintro ⟨⟩
                exact .cons first (inductionHypothesis.mp others)
              · intro all
                obtain ⟨head, tail, isFirst, isRest, rfl⟩ := List.forall₂_cons_left_iff.mp all
                rw [first] at isFirst
                rw [inductionHypothesis.mpr isRest] at others
                cases isFirst
                cases others
                rfl

/-- What goes wrong goes wrong with one of the attempts. -/
theorem exists_of_mapM_eq_error {fault : ε} (failed : items.mapM attempt = .error fault) :
    ∃ item ∈ items, attempt item = .error fault := by
  induction items with
  | nil => cases failed
  | cons item items inductionHypothesis =>
      rw [List.mapM_cons] at failed
      cases first : attempt item with
      | error other =>
          rw [first] at failed
          cases failed
          exact ⟨item, List.mem_cons_self, first⟩
      | ok result =>
          rw [first] at failed
          cases others : items.mapM attempt with
          | error other =>
              rw [others] at failed
              cases failed
              obtain ⟨item, member, failed⟩ := inductionHypothesis others
              exact ⟨item, List.mem_cons_of_mem _ member, failed⟩
          | ok rest =>
              rw [others] at failed
              cases failed

/-- Every result is that of an attempt that was made. -/
theorem exists_of_mem_mapM {result : β} (succeeded : items.mapM attempt = .ok results)
    (member : result ∈ results) : ∃ item ∈ items, attempt item = .ok result := by
  have all : List.Forall₂ (fun item result => attempt item = .ok result) items results :=
    mapM_eq_ok_iff.mp succeeded
  obtain ⟨item, inside, isResult⟩ := exists_left_of_forall₂ all member
  exact ⟨item, inside, isResult⟩

/-- Every attempt has its result. -/
theorem exists_result_of_mem {item : α} (succeeded : items.mapM attempt = .ok results)
    (member : item ∈ items) : ∃ result ∈ results, attempt item = .ok result := by
  have all : List.Forall₂ (fun item result => attempt item = .ok result) items results :=
    mapM_eq_ok_iff.mp succeeded
  obtain ⟨result, inside, isResult⟩ := exists_left_of_forall₂ (List.Forall₂.flip all) member
  exact ⟨result, inside, isResult⟩

/-! ### Two attempts -/

/-- Two attempts that both succeed, with results that are related, or both fail. -/
inductive EndAlike {ε α β : Type} (relates : α → β → Prop) : Except ε α → Except ε β → Prop
  | ok {result : α} {other : β} : relates result other → EndAlike relates (.ok result) (.ok other)
  | error (fault other : ε) : EndAlike relates (.error fault) (.error other)

section Alike

variable {γ δ : Type} {relates : α → γ → Prop} {relatesNext : β → δ → Prop} {first : Except ε α}
  {second : Except ε γ}

theorem EndAlike.of_iff
    (onward : ∀ result, first = .ok result → ∃ other, second = .ok other ∧ relates result other)
    (backward : ∀ other, second = .ok other → ∃ result, first = .ok result) :
    EndAlike relates first second := by
  cases isFirst : first with
  | ok result =>
      obtain ⟨other, isSecond, related⟩ := onward result isFirst
      rw [isSecond]
      exact .ok related
  | error fault =>
      cases isSecond : second with
      | ok other =>
          obtain ⟨result, isOk⟩ := backward other isSecond
          rw [isOk] at isFirst
          cases isFirst
      | error other => exact .error fault other

theorem EndAlike.imp {relatesToo : α → γ → Prop} (alike : EndAlike relates first second)
    (onward : ∀ result other, relates result other → relatesToo result other) :
    EndAlike relatesToo first second := by
  cases alike with
  | ok related => exact .ok (onward _ _ related)
  | error fault other => exact .error fault other

theorem EndAlike.bind {next : α → Except ε β} {otherNext : γ → Except ε δ}
    (alike : EndAlike relates first second)
    (further : ∀ result other, relates result other → EndAlike relatesNext (next result) (otherNext other)) :
    EndAlike relatesNext (first >>= next) (second >>= otherNext) := by
  cases alike with
  | ok related => exact further _ _ related
  | error fault other => exact .error fault other

theorem EndAlike.mapM {ι : Type} {items : List ι} {one : ι → Except ε α} {other : ι → Except ε γ}
    (each : ∀ item ∈ items, EndAlike relates (one item) (other item)) :
    EndAlike (List.Forall₂ relates) (items.mapM one) (items.mapM other) := by
  induction items with
  | nil => exact .ok .nil
  | cons item items inductionHypothesis =>
      obtain ⟨isFirst, each⟩ := List.forall_mem_cons.mp each
      rw [List.mapM_cons, List.mapM_cons]
      exact isFirst.bind fun _ _ related =>
        (inductionHypothesis each).bind fun _ _ all => .ok (.cons related all)

end Alike

end ImportMeter
