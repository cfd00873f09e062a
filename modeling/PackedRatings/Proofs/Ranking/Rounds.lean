import Mathlib.Data.List.Induction
import PackedRatings.Proofs.Ranking.TopRanking
import PackedRatings.Proofs.Vector.Pairs

/-!
# Rounds of a collector

A collector is used in rounds: entries are put into it, a finish lists them, and the next entry
starts the next round. Between a finish and the next put it is spent, and then each finish is
refused and changes nothing. `ScoreCollector.LifeCycle` says this of every run of a collector,
and that a round which comes after a finish gives the answers of a new collector.
-/
namespace PackedRatings

/-- The vector of the highest scores exists for any list of entries, since it takes one entry of
each key. -/
theorem Scored.exists_toVector_eq_ok (ranked : List Scored) :
    ∃ v, Scored.toVector ranked = .ok v := by
  apply KeyedVector.exists_ofPairs_eq_ok
  have hascending := firstOfRuns_pairwise (sortOn_pairwise Prod.fst
    (ranked.map fun s => (s.key, s.score)))
  rw [List.Nodup, List.pairwise_map]
  exact hascending.imp Int64.ne_of_lt

/-- What can be asked of a collector. A finish is refused exactly by a finished collector, which
stays as it is. Any other one gives the entries by rank and leaves nothing, and the two further
ways to finish make a vector or a set of keys of these entries. -/
class ScoreCollector (σ : Type) where
  size : σ → Nat
  offer : σ → Scored → σ
  finish : σ → Except Failure (List Scored) × σ
  finishVector : σ → Except Failure KeyedVector × σ
  finishKeys : σ → Except Failure KeyWindow × σ
  finished : σ → Bool
  finished_offer : ∀ c entry, finished (offer c entry) = false
  finish_of_finished : ∀ c, finished c = true →
    finish c = (.error (.invalidOperation "finish"), c)
  exists_finish_eq_ok : ∀ c, finished c = false →
    ∃ ranked c', finish c = (.ok ranked, c') ∧ finished c' = true ∧ size c' = 0
  finishVector_eq : ∀ c, finishVector c = ((finish c).1 >>= Scored.toVector, (finish c).2)
  finishKeys_eq : ∀ c, finishKeys c = ((finish c).1.map Scored.toKeys, (finish c).2)

instance : ScoreCollector FullCollector where
  size := FullCollector.size
  offer := FullCollector.offer
  finish := FullCollector.finish
  finishVector := FullCollector.finishVector
  finishKeys := FullCollector.finishKeys
  finished := FullCollector.finished
  finished_offer := fun _ _ => rfl
  finish_of_finished := fun c h => by simp [FullCollector.finish, h]
  exists_finish_eq_ok := fun c h => by
    simp only [FullCollector.finish, h]
    exact ⟨_, _, rfl, rfl, rfl⟩
  finishVector_eq := fun _ => rfl
  finishKeys_eq := fun _ => rfl

instance : ScoreCollector TopCollector where
  size := TopCollector.size
  offer := TopCollector.offer
  finish := TopCollector.finish
  finishVector := TopCollector.finishVector
  finishKeys := TopCollector.finishKeys
  finished := TopCollector.finished
  finished_offer := TopCollector.finished_offer
  finish_of_finished := fun _ => TopCollector.finish_of_finished
  exists_finish_eq_ok := fun c h => by
    simp only [TopCollector.finish, h]
    exact ⟨_, _, rfl, rfl, rfl⟩
  finishVector_eq := fun _ => rfl
  finishKeys_eq := fun _ => rfl

namespace ScoreCollector

inductive Output where
  | list
  | vector
  | keys

inductive Call where
  | offer (entry : Scored)
  | size
  | finish (output : Output)

inductive Answer where
  | taken
  | size (n : Nat)
  | ranked (entries : List Scored)
  | vector (v : KeyedVector)
  | keys (w : KeyWindow)
  | refused (failure : Failure)

def answered {σ α : Type} (answer : α → Answer) (result : Except Failure α × σ) : Answer × σ :=
  match result with
  | (.ok a, c) => (answer a, c)
  | (.error failure, c) => (.refused failure, c)

theorem answered_congr {σ α : Type} {answer : α → Answer} {x y : Except Failure α × σ}
    (h : x.1 = y.1) : (answered answer x).1 = (answered answer y).1 := by
  obtain ⟨x, c⟩ := x
  obtain ⟨y, d⟩ := y
  obtain rfl : x = y := h
  cases x with
  | ok a => rfl
  | error failure => rfl

variable {σ : Type} [ScoreCollector σ] {c d : σ} {call : Call} {history : List Call}

def step (c : σ) : Call → Answer × σ
  | .offer entry => (.taken, offer c entry)
  | .size => (.size (size c), c)
  | .finish .list => answered .ranked (finish c)
  | .finish .vector => answered .vector (finishVector c)
  | .finish .keys => answered .keys (finishKeys c)

def answers (c : σ) : List Call → List Answer
  | [] => []
  | call :: calls => (step c call).1 :: answers (step c call).2 calls

def after (c : σ) (calls : List Call) : σ :=
  calls.foldl (fun c call => (step c call).2) c

@[simp] theorem after_nil (c : σ) : after c [] = c := rfl

@[simp] theorem after_concat (c : σ) (calls : List Call) (call : Call) :
    after c (calls ++ [call]) = (step (after c calls) call).2 := by
  simp [after]

/-- Some finish has been called and nothing has been put since. -/
def Spent (history : List Call) : Prop :=
  ∃ before output since, history = before ++ .finish output :: since ∧
    ∀ entry, .offer entry ∉ since

theorem not_spent_nil : ¬ Spent [] := by
  rintro ⟨before, output, since, heq, -⟩
  simp at heq

theorem spent_concat_iff : Spent (history ++ [call]) ↔
    (∃ output, call = .finish output) ∨ Spent history ∧ ∀ entry, call ≠ .offer entry := by
  constructor
  · rintro ⟨before, output, since, heq, hsince⟩
    cases since using List.reverseRecOn with
    | nil => exact .inl ⟨output, (List.append_singleton_inj.1 heq).2⟩
    | append_singleton since last =>
      rw [← List.cons_append, ← List.append_assoc, List.append_singleton_inj] at heq
      simp only [List.mem_append, List.mem_singleton, not_or] at hsince
      right
      constructor
      · exact ⟨before, output, since, heq.1, fun entry => (hsince entry).1⟩
      · intro entry hcall
        exact (hsince entry).2 (hcall.symm.trans heq.2)
  · rintro (⟨output, rfl⟩ | ⟨⟨before, output, since, rfl, hsince⟩, hcall⟩)
    · exact ⟨history, output, [], rfl, by simp⟩
    · exact ⟨before, output, since ++ [call], by simp, by simp [hsince, hcall, eq_comm]⟩

def pending (history : List Call) : List Scored :=
  history.foldl (fun puts call =>
    match call with
    | .offer entry => puts ++ [entry]
    | .size => puts
    | .finish _ => []) []

@[simp] theorem pending_offer (history : List Call) (entry : Scored) :
    pending (history ++ [.offer entry]) = pending history ++ [entry] := by
  simp [pending]

@[simp] theorem pending_size (history : List Call) :
    pending (history ++ [.size]) = pending history := by
  simp [pending]

@[simp] theorem pending_finish (history : List Call) (output : Output) :
    pending (history ++ [.finish output]) = [] := by
  simp [pending]

theorem pending_of_spent (h : Spent history) : pending history = [] := by
  induction history using List.reverseRecOn with
  | nil => exact absurd h not_spent_nil
  | append_singleton history call ih =>
    rw [spent_concat_iff] at h
    cases call with
    | offer entry => simp at h
    | size =>
      rw [pending_size]
      exact ih (by simpa using h)
    | finish output => exact pending_finish history output

/-- What a finish answers is made of the entries that a plain one lists. -/
theorem step_finish_congr (h : (finish c).1 = (finish d).1) (output : Output) :
    (step c (.finish output)).1 = (step d (.finish output)).1 := by
  cases output with
  | list => exact answered_congr h
  | vector =>
    apply answered_congr
    rw [finishVector_eq, finishVector_eq, h]
  | keys =>
    apply answered_congr
    rw [finishKeys_eq, finishKeys_eq, h]

theorem step_of_finished (h : finished c = true) (output : Output) :
    step c (.finish output) = (.refused (.invalidOperation "finish"), c) := by
  have hfinish := finish_of_finished c h
  cases output with
  | list =>
    rw [step, hfinish]
    rfl
  | vector =>
    rw [step, finishVector_eq, hfinish]
    rfl
  | keys =>
    rw [step, finishKeys_eq, hfinish]
    rfl

/-- Every finish of a collector that is not finished succeeds and leaves what a plain one
leaves. -/
theorem step_of_open (h : finished c = false) (output : Output) :
    (∃ ranked, finish c = (.ok ranked, (step c (.finish output)).2)) ∧
      ∀ failure, (step c (.finish output)).1 ≠ .refused failure := by
  obtain ⟨ranked, c', hfinish, -⟩ := exists_finish_eq_ok c h
  cases output with
  | list =>
    rw [step, hfinish]
    exact ⟨⟨ranked, rfl⟩, by simp [answered]⟩
  | vector =>
    obtain ⟨v, hv⟩ := Scored.exists_toVector_eq_ok ranked
    have hvector : finishVector c = (.ok v, c') := by
      rw [finishVector_eq, hfinish, ← hv]
      rfl
    rw [step, hvector]
    exact ⟨⟨ranked, hfinish⟩, by simp [answered]⟩
  | keys =>
    have hkeys : finishKeys c = (.ok (Scored.toKeys ranked), c') := by
      rw [finishKeys_eq, hfinish]
      rfl
    rw [step, hkeys]
    exact ⟨⟨ranked, hfinish⟩, by simp [answered]⟩

theorem finish_leaves {ranked : List Scored} {c' : σ} (h : finish c = (.ok ranked, c')) :
    finished c' = true ∧ size c' = 0 := by
  cases hfinished : finished c with
  | true =>
    rw [finish_of_finished c hfinished] at h
    cases h
  | false =>
    obtain ⟨ranked, c', hfinish, hleaves⟩ := exists_finish_eq_ok c hfinished
    rw [hfinish] at h
    cases h
    exact hleaves

/-- Every finish leaves a finished collector, and every put one that is not finished. -/
theorem finished_step_finish (c : σ) (output : Output) :
    finished (step c (.finish output)).2 = true := by
  cases h : finished c with
  | true => rw [step_of_finished h, h]
  | false =>
    obtain ⟨ranked, hfinish⟩ := (step_of_open h output).1
    exact (finish_leaves hfinish).1

theorem finished_after_iff {new : σ} (hnew : finished new = false) (history : List Call) :
    finished (after new history) = true ↔ Spent history := by
  induction history using List.reverseRecOn with
  | nil => simp [hnew, not_spent_nil]
  | append_singleton history call ih =>
    rw [after_concat, spent_concat_iff]
    cases call with
    | offer entry => simp [step, finished_offer]
    | size => simp [step, ih]
    | finish output => simp [finished_step_finish]

instance (history : List Call) : Decidable (Spent history) :=
  have hnew : finished FullCollector.empty = false := rfl
  decidable_of_iff _ (finished_after_iff hnew history)

theorem open_after {new : σ} (hnew : finished new = false) (h : ¬ Spent history) :
    finished (after new history) = false := by
  rwa [← finished_after_iff hnew, Bool.not_eq_true] at h

/-- What holds at every point of every run of a collector that starts as `new`. -/
structure LifeCycle (new : σ) : Prop where
  refused_iff : ∀ history output failure,
    (step (after new history) (.finish output)).1 = .refused failure ↔
      failure = .invalidOperation "finish" ∧ Spent history
  refusal_unseen : ∀ history output, Spent history → ∀ later,
    answers (after new (history ++ [.finish output])) later = answers (after new history) later
  emptied : ∀ history output, ¬ Spent history →
    size (after new (history ++ [.finish output])) = 0
  renewed : ∀ history output, ¬ Spent history → ∀ entry later,
    answers (after new (history ++ [.finish output])) (.offer entry :: later) =
      answers new (.offer entry :: later)

theorem lifeCycle_of_renewed {new : σ} (hnew : finished new = false)
    (hrenewed : ∀ history ranked c', finish (after new history) = (.ok ranked, c') →
      ∀ entry later, answers (offer c' entry) later = answers (offer new entry) later) :
    LifeCycle new := by
  have hspent : ∀ {history}, Spent history → finished (after new history) = true :=
    (finished_after_iff hnew _).2
  constructor
  · intro history output failure
    by_cases h : Spent history
    · simp [step_of_finished (hspent h), h, eq_comm]
    · simp [h, (step_of_open (open_after hnew h) output).2 failure]
  · intro history output h later
    rw [after_concat, step_of_finished (hspent h)]
  · intro history output h
    obtain ⟨ranked, hfinish⟩ := (step_of_open (open_after hnew h) output).1
    rw [after_concat]
    exact (finish_leaves hfinish).2
  · intro history output h entry later
    obtain ⟨ranked, hfinish⟩ := (step_of_open (open_after hnew h) output).1
    rw [after_concat]
    exact congrArg (Answer.taken :: ·) (hrenewed history ranked _ hfinish entry later)

end ScoreCollector

end PackedRatings
