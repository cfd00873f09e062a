import PackedRatings.Proofs.Vector.Copies

/-!
# Freezing is final

Every call that changes a draft asks first whether the draft is frozen, before it looks at a key
or at the values of another map, and it writes after all its checks. So a draft refuses as frozen
exactly if it was frozen before, itself or as what it was cloned from, and a refusal of any kind
leaves the draft as it was. Whatever is called after freezing, the draft and its clones stay as
they are and read like the vector that freezing gave.
-/
namespace PackedRatings

/-- No call on a partial map is refused as frozen. -/
theorem PartialMap.step_ne_frozen (m : PartialMap) (call : DraftVector.Call) :
    (m.step call).1 ≠ .error .frozen := by
  intro h
  cases call with
  | set key x =>
    rw [step, set] at h
    split at h
    · cases h
    · cases h
  | add key x =>
    rw [step, add] at h
    split at h
    · split at h
      · cases h
      · cases h
    · cases h
  | unset key =>
    rw [step, unset] at h
    split at h
    · cases h
    · cases h
  | _ => cases h

namespace DraftVector

variable {d : DraftVector}

inductive Action : Type 1 where
  | write (call : Call)
  | freeze

namespace Action

/-- Choosing another fallback is the only call that may be made after freezing. -/
def Mutates : Action → Prop
  | write (.withFallback _) => False
  | _ => True

def isFreeze : Action → Bool
  | freeze => true
  | write _ => false

theorem mutates_or_withFallback (action : Action) :
    action.Mutates ∨ ∃ fallback, action = write (.withFallback fallback) := by
  cases action with
  | freeze => exact .inl trivial
  | write call =>
    cases call with
    | withFallback fallback => exact .inr ⟨fallback, rfl⟩
    | _ => exact .inl trivial

end Action

inductive Reply where
  | previous (x : Option Binary64)
  | vector (v : KeyedVector)

def act (d : DraftVector) : Action → Except Failure Reply × DraftVector
  | .write call => ((d.step call).1.map .previous, (d.step call).2)
  | .freeze => (d.freeze.1.map .vector, d.freeze.2)

theorem slotOf_of_frozen (h : d.frozen = true) (key : Int64) : d.slotOf key = .error .frozen := by
  rw [slotOf, checkOpen_of_frozen h]
  rfl

theorem act_of_frozen (h : d.frozen = true) {action : Action} (hmutates : action.Mutates) :
    d.act action = (.error .frozen, d) := by
  have hcheck := checkOpen_of_frozen h
  cases action with
  | freeze =>
    rw [act, freeze, hcheck]
    rfl
  | write call =>
    cases call with
    | set key x =>
      rw [act, step, set, slotOf_of_frozen h]
      rfl
    | add key x =>
      rw [act, step, add, slotOf_of_frozen h]
      rfl
    | unset key =>
      rw [act, step, unset, slotOf_of_frozen h]
      rfl
    | clear =>
      rw [act, step, clear, hcheck]
      rfl
    | fill x =>
      rw [act, step, fill, hcheck]
      rfl
    | scale factor =>
      rw [act, step, scale, hcheck]
      rfl
    | setAll other =>
      rw [act, step, setAll, hcheck]
      rfl
    | addAll other =>
      rw [act, step, addAll, hcheck]
      rfl
    | withFallback fallback => exact hmutates.elim

/-- A call that is refused for its key has not written anything. -/
theorem step_of_error (h : d.frozen = false) {call : Call} {failure : Failure}
    (hrefused : (d.step call).1 = .error failure) : (d.step call).2 = d := by
  have hcheck := checkOpen_eq h
  cases call with
  | set key x =>
    rw [step, set] at hrefused ⊢
    cases hslot : d.slotOf key with
    | error failure => rfl
    | ok i =>
      rw [hslot] at hrefused
      cases hrefused
  | add key x =>
    rw [step, answered, add] at hrefused ⊢
    cases hslot : d.slotOf key with
    | error failure => rfl
    | ok i =>
      by_cases hset : d.assigned.contains i = true
      · simp only [hslot, if_pos hset] at hrefused
        cases hrefused
      · simp only [if_neg hset]
  | unset key =>
    rw [step, unset] at hrefused ⊢
    cases hslot : d.slotOf key with
    | error failure => rfl
    | ok i =>
      rw [hslot] at hrefused
      cases hrefused
  | clear =>
    rw [step, clear, hcheck] at hrefused
    cases hrefused
  | fill x =>
    rw [step, fill, hcheck] at hrefused
    cases hrefused
  | scale factor =>
    rw [step, scale, hcheck] at hrefused
    cases hrefused
  | setAll other =>
    rw [step, setAll, hcheck] at hrefused
    cases hrefused
  | addAll other =>
    rw [step, addAll, hcheck] at hrefused
    cases hrefused
  | withFallback fallback => cases hrefused

/-- An action that is refused, for whatever cause, leaves the draft as it was. -/
theorem act_of_error {action : Action} {failure : Failure}
    (hrefused : (d.act action).1 = .error failure) : (d.act action).2 = d := by
  cases hfrozen : d.frozen with
  | true =>
    rcases action.mutates_or_withFallback with hmutates | ⟨fallback, rfl⟩
    · rw [act_of_frozen hfrozen hmutates]
    · cases hrefused
  | false =>
    cases action with
    | freeze =>
      rw [act, freeze_eq_ok hfrozen] at hrefused
      cases hrefused
    | write call =>
      rw [act] at hrefused
      cases hanswer : (d.step call).1 with
      | ok previous =>
        rw [hanswer] at hrefused
        cases hrefused
      | error failure => exact step_of_error hfrozen hanswer

/-- An action on a draft that is not frozen is not refused as frozen, and freezes it only if it is
meant to. -/
theorem act_of_open (h : d.frozen = false) (action : Action) :
    (d.act action).1 ≠ .error .frozen ∧ (d.act action).2.frozen = action.isFreeze := by
  cases action with
  | freeze =>
    rw [act, freeze_eq_ok h]
    refine ⟨fun hrefused => ?_, rfl⟩
    cases hrefused
  | write call =>
    have hmeans := step_means h call
    refine ⟨fun hrefused => ?_, hmeans.notFrozen⟩
    rw [act] at hrefused
    cases hanswer : (d.step call).1 with
    | ok previous =>
      rw [hanswer] at hrefused
      cases hrefused
    | error failure =>
      rw [hanswer] at hrefused
      cases hrefused
      exact PartialMap.step_ne_frozen d.toMap call (hmeans.answer.symm.trans hanswer)

/-- Only freezing makes a draft frozen, and it stays so. -/
theorem frozen_act (d : DraftVector) (action : Action) :
    (d.act action).2.frozen = (d.frozen || action.isFreeze) := by
  cases hfrozen : d.frozen with
  | false => exact (act_of_open hfrozen action).2
  | true =>
    rcases action.mutates_or_withFallback with hmutates | ⟨fallback, rfl⟩
    · rw [act_of_frozen hfrozen hmutates]
      exact hfrozen
    · exact hfrozen

theorem act_eq_frozen_iff {action : Action} :
    (d.act action).1 = .error .frozen ↔ d.frozen = true ∧ action.Mutates := by
  constructor
  · intro hrefused
    have hfrozen : d.frozen = true := by
      rw [← Bool.not_eq_false]
      intro hopen
      exact (act_of_open hopen action).1 hrefused
    rcases action.mutates_or_withFallback with hmutates | ⟨fallback, rfl⟩
    · exact ⟨hfrozen, hmutates⟩
    · cases hrefused
  · rintro ⟨hfrozen, hmutates⟩
    rw [act_of_frozen hfrozen hmutates]

/-- The draft reads like the vector that freezing gave. -/
theorem readsAlike_of_freeze {v : KeyedVector} {frozen : DraftVector}
    (h : d.freeze = (.ok v, frozen)) : d.frozen = false ∧ frozen = { d with frozen := true } ∧
      frozen.ReadsAlike v ∧ v.fallback = frozen.fallback := by
  obtain ⟨hopen, rfl, rfl⟩ := freeze_eq_ok_iff.1 h
  have hcopied := copied_snapshot { d with frozen := true }
  exact ⟨hopen, rfl, hcopied.reads, hcopied.fallback⟩

theorem freeze_of_act {action : Action} {v : KeyedVector}
    (h : (d.act action).1 = .ok (.vector v)) : d.freeze = (.ok v, (d.act action).2) := by
  cases action with
  | write call =>
    rw [act] at h
    cases hanswer : (d.step call).1 with
    | ok previous =>
      rw [hanswer] at h
      cases h
    | error failure =>
      rw [hanswer] at h
      cases h
  | freeze =>
    rw [act] at h
    cases hfreeze : d.freeze.1 with
    | ok w =>
      rw [hfreeze] at h
      cases h
      exact Prod.ext hfreeze rfl
    | error failure =>
      rw [hfreeze] at h
      cases h

/-- Actions one after the other. A clone is used by itself before the draft is used on. -/
inductive Use : Type 1 where
  | stop
  | act (action : Action) (rest : Use)
  | clone (copy rest : Use)

/-- All actions are such that a frozen draft should refuse. -/
def Use.Mutates : Use → Prop
  | stop => True
  | act action rest => action.Mutates ∧ rest.Mutates
  | clone copy rest => copy.Mutates ∧ rest.Mutates

/-- An action with its answer. It is `sealed` if freezing was among the actions before it, on the
same draft or on what this is a clone of. -/
structure Event : Type 1 where
  sealed : Bool
  before : DraftVector
  action : Action
  answer : Except Failure Reply
  after : DraftVector

/-- What happens in the use of a draft, on which freezing was among the actions before or not. -/
def trace (d : DraftVector) (sealed : Bool) : Use → List Event
  | .stop => []
  | .act action rest =>
    ⟨sealed, d, action, (d.act action).1, (d.act action).2⟩ ::
      (d.act action).2.trace (sealed || action.isFreeze) rest
  | .clone copy rest => d.trace sealed copy ++ d.trace sealed rest

/-- In every use, a draft is frozen exactly if it was frozen before. -/
theorem frozen_of_mem_trace {sealed : Bool} (h : d.frozen = sealed) (use : Use) :
    ∀ e ∈ d.trace sealed use, e.before.frozen = e.sealed ∧
      e.answer = (e.before.act e.action).1 ∧ e.after = (e.before.act e.action).2 := by
  intro e he
  induction use generalizing d sealed with
  | stop =>
    rw [trace] at he
    cases he
  | act action rest ih =>
    rw [trace] at he
    rcases List.mem_cons.1 he with rfl | he
    · exact ⟨h, rfl, rfl⟩
    · refine ih ?_ he
      rw [frozen_act, h]
  | clone copy rest ihcopy ihrest =>
    rw [trace] at he
    rcases List.mem_append.1 he with he | he
    · exact ihcopy h he
    · exact ihrest h he

/-- A frozen draft and its clones refuse everything and stay as they are. -/
theorem refuses_of_frozen (h : d.frozen = true) {use : Use} (hmutates : use.Mutates) :
    ∀ e ∈ d.trace true use, e.answer = .error .frozen ∧ e.after = d := by
  intro e he
  induction use with
  | stop =>
    rw [trace] at he
    cases he
  | act action rest ih =>
    rw [trace, act_of_frozen h hmutates.1] at he
    rcases List.mem_cons.1 he with rfl | he
    · exact ⟨rfl, rfl⟩
    · exact ih hmutates.2 he
  | clone copy rest ihcopy ihrest =>
    rw [trace] at he
    rcases List.mem_append.1 he with he | he
    · exact ihcopy hmutates.1 he
    · exact ihrest hmutates.2 he

/-- What holds from now on of a draft whose freezing gave `v`. -/
structure Final (frozen : DraftVector) (v : KeyedVector) : Prop where
  reads : frozen.ReadsAlike v
  fallback : v.fallback = frozen.fallback
  refuses : ∀ use : Use, use.Mutates → ∀ e ∈ frozen.trace true use,
    e.answer = .error .frozen ∧ e.after = frozen

theorem final_of_freeze {v : KeyedVector} {frozen : DraftVector}
    (h : d.freeze = (.ok v, frozen)) : frozen.Final v := by
  obtain ⟨-, rfl, hreads, hfallback⟩ := readsAlike_of_freeze h
  exact ⟨hreads, hfallback, fun use hmutates => refuses_of_frozen rfl hmutates⟩

/-- No draft is frozen when it is new. -/
inductive New : DraftVector → Prop where
  | ofDomain (w : KeyWindow) : New (ofDomain w)
  | ofKeys {keys : List Int64} {d : DraftVector} (h : ofKeys keys = .ok d) : New d
  | ofVector (v : KeyedVector) : New (ofVector v)

theorem New.frozen_eq_false (h : d.New) : d.frozen = false := by
  cases h with
  | ofDomain w => rfl
  | ofVector v => rfl
  | ofKeys h =>
    simp only [DraftVector.ofKeys, bind_eq_ok_iff, pure_eq_ok_iff] at h
    obtain ⟨w, -, rfl⟩ := h
    rfl

theorem freezing_is_final :
    (∀ (d frozen : DraftVector) (v : KeyedVector), d.freeze = (.ok v, frozen) →
      d.frozen = false ∧ frozen = { d with frozen := true } ∧ frozen.Final v) ∧
    (∀ d : DraftVector, d.New → d.frozen = false) ∧
    ∀ d : DraftVector, d.frozen = false →
      d.freeze = (.ok d.snapshot, { d with frozen := true }) ∧
      ∀ use, ∀ e ∈ d.trace false use,
        (e.answer = .error .frozen ↔ e.sealed = true ∧ e.action.Mutates) ∧
        (∀ failure, e.answer = .error failure → e.after = e.before) ∧
        ∀ v, e.answer = .ok (.vector v) → e.sealed = false ∧ e.after.Final v := by
  refine ⟨fun d frozen v h => ?_, fun d hnew => hnew.frozen_eq_false, fun d hopen => ?_⟩
  · obtain ⟨hopen, hfrozen, -⟩ := readsAlike_of_freeze h
    exact ⟨hopen, hfrozen, final_of_freeze h⟩
  · refine ⟨freeze_eq_ok hopen, fun use e he => ?_⟩
    obtain ⟨hsealed, hanswer, hafter⟩ := frozen_of_mem_trace hopen use e he
    rw [← hsealed, hanswer, hafter]
    refine ⟨act_eq_frozen_iff, fun failure => act_of_error, fun v hvector => ?_⟩
    have hfreeze := freeze_of_act hvector
    exact ⟨(readsAlike_of_freeze hfreeze).1, final_of_freeze hfreeze⟩

def lateUse : Use :=
  .act (.write (.set 9 .nan)) <|
    .clone (.act (.write (.setAll ([] : List (Int64 × Binary64)))) .stop) (.act .freeze .stop)

theorem freezing_is_final_lateUse : ∃ d v frozen, ofKeys [1, 5] = .ok d ∧
    d.freeze = (.ok v, frozen) ∧ (frozen.trace true lateUse).length = 3 ∧
    ∀ e ∈ frozen.trace true lateUse, e.answer = .error .frozen ∧ e.after = frozen := by
  obtain ⟨d, hd⟩ := exists_ofKeys_eq_ok_iff.2 (show [1, 5].Nodup by decide)
  have hopen := freezing_is_final.2.1 d (.ofKeys hd)
  have hfreeze := (freezing_is_final.2.2 d hopen).1
  obtain ⟨-, -, hfinal⟩ := freezing_is_final.1 d _ _ hfreeze
  have hmutates : lateUse.Mutates := ⟨trivial, ⟨trivial, trivial⟩, trivial, trivial⟩
  exact ⟨d, _, _, hd, hfreeze, rfl, hfinal.refuses lateUse hmutates⟩

end DraftVector

end PackedRatings
