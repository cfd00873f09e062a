import Std.Data.TreeMap.Lemmas
import PackedRatings.Proofs.Outcome
import PackedRatings.Store.EventNames

/-!
# First names win

Over any run of registrations each name keeps the kind that it was first given, whatever is
refused in between. The listing of the names is the ascending list of those that a look-up knows.
-/
namespace PackedRatings.EventNames

theorem toOption_lookup (names : EventNames) (name : String) :
    (names.lookup name).toOption = names.kinds[name]? := by
  rw [lookup]
  cases names.kinds[name]? with
  | none => rfl
  | some kind => rfl

theorem lookup_of_toOption_eq_none {names : EventNames} {name : String}
    (h : (names.lookup name).toOption = none) :
    names.lookup name = .error (.unknownEventType name) := by
  rw [toOption_lookup] at h
  simp only [lookup, h]

theorem contains_eq_isSome (names : EventNames) (name : String) :
    names.kinds.contains name = (names.lookup name).toOption.isSome := by
  rw [toOption_lookup, Std.TreeMap.contains_eq_isSome_getElem?]

theorem mem_toList_iff {names : EventNames} {name : String} :
    name ∈ names.toList ↔ ∃ kind, names.lookup name = .ok kind := by
  rw [toList, Std.TreeMap.mem_keys, ← Std.TreeMap.contains_iff_mem, contains_eq_isSome,
    Option.isSome_iff_exists]
  simp only [toOption_eq_some_iff]

theorem toList_pairwise (names : EventNames) : names.toList.Pairwise (· < ·) := by
  refine Std.TreeMap.ordered_keys.imp fun {a b} h => ?_
  exact compareOfLessAndEq_eq_lt.1 h

theorem length_toList (names : EventNames) : names.toList.length = names.size :=
  Std.TreeMap.length_keys

theorem lookup_empty (name : String) : empty.lookup name = .error (.unknownEventType name) :=
  lookup_of_toOption_eq_none <| by
    rw [toOption_lookup]
    exact Std.TreeMap.getElem?_emptyc

/-- By default each kind has its usual name and no other. -/
theorem lookup_defaults_eq_ok_iff {name : String} {kind : Interaction} :
    defaults.lookup name = .ok kind ↔ name = kind.usualName := by
  rw [← toOption_eq_some_iff, toOption_lookup]
  simp only [defaults, Interaction.all, List.foldl_cons, List.foldl_nil,
    Std.TreeMap.getElem?_insert, Std.compare_eq_iff_eq, Std.TreeMap.getElem?_emptyc]
  cases kind with
  | rating => grind [Interaction.usualName]
  | like => grind [Interaction.usualName]
  | likeBatch => grind [Interaction.usualName]

theorem checkName_eq_ok_iff {names : EventNames} {name : String} :
    names.checkName name = .ok () ↔ name ≠ "" ∧ (names.lookup name).toOption = none := by
  have hknown := contains_eq_isSome names name
  by_cases hname : name = ""
  · simp [checkName, Requirement.check, hname, bind, Except.bind]
  · cases hlookup : (names.lookup name).toOption with
    | none =>
      simp [checkName, Requirement.check, hname, hknown, hlookup, bind, Except.bind, pure,
        Except.pure]
    | some kind =>
      simp [checkName, Requirement.check, hname, hknown, hlookup, bind, Except.bind, throw,
        throwThe, MonadExceptOf.throw]

/-- A name is given unless it is blank or has been given already. -/
theorem register_eq_ok_iff {names : EventNames} {name : String} {kind : Interaction} :
    (names.register name kind).1 = .ok () ↔ name ≠ "" ∧ name ∉ names.toList := by
  have hknown : name ∉ names.toList ↔ (names.lookup name).toOption = none := by
    rw [mem_toList_iff, ← Option.not_isSome_iff_eq_none, Option.isSome_iff_exists]
    simp only [toOption_eq_some_iff]
  rw [hknown, ← checkName_eq_ok_iff]
  cases hname : names.checkName name with
  | error failure => simp [register, hname]
  | ok u => simp [register, hname]

theorem register_of_eq_error {names : EventNames} {name : String} {kind : Interaction}
    {failure : Failure} (h : (names.register name kind).1 = .error failure) :
    (names.register name kind).2 = names := by
  cases hname : names.checkName name with
  | error failure => simp only [register, hname]
  | ok u => simp [register, hname] at h

/-- A registration gives its name a kind unless the name is blank or has one, and touches no
other name. -/
theorem lookup_register (names : EventNames) (given name : String) (kind : Interaction) :
    ((names.register given kind).2.lookup name).toOption =
      (names.lookup name).toOption.or (if given = name ∧ given ≠ "" then some kind else none) := by
  cases hgiven : names.checkName given with
  | error failure =>
    have hrefused : ¬ (given ≠ "" ∧ (names.lookup given).toOption = none) := by
      rw [← checkName_eq_ok_iff, hgiven]
      simp
    simp only [register, hgiven]
    by_cases hsame : given = name ∧ given ≠ ""
    · obtain ⟨rfl, hblank⟩ := hsame
      cases hknown : (names.lookup given).toOption with
      | none => exact absurd ⟨hblank, hknown⟩ hrefused
      | some k => simp
    · simp [hsame]
  | ok u =>
    obtain ⟨hblank, hknown⟩ := checkName_eq_ok_iff.1 hgiven
    simp only [register, hgiven, toOption_lookup, Std.TreeMap.getElem?_insert,
      Std.compare_eq_iff_eq]
    by_cases hsame : given = name
    · subst hsame
      rw [toOption_lookup] at hknown
      simp [hknown, hblank]
    · simp [hsame]

/-- The names after each of `requests` in turn, some of which may be refused. -/
def registerAll (names : EventNames) (requests : List (String × Interaction)) : EventNames :=
  requests.foldl (fun names (name, kind) => (names.register name kind).2) names

/-- After any run a name has the kind that it had before, or else the first one asked for. -/
theorem lookup_registerAll (names : EventNames) (requests : List (String × Interaction))
    (name : String) :
    ((names.registerAll requests).lookup name).toOption =
      (names.lookup name).toOption.or (if name = "" then none else requests.lookup name) := by
  induction requests generalizing names with
  | nil => simp [registerAll]
  | cons request requests ih =>
    obtain ⟨given, kind⟩ := request
    rw [registerAll, List.foldl_cons, ← registerAll, ih, lookup_register, Option.or_assoc]
    congr 1
    by_cases hname : name = ""
    · simp [hname]
    · by_cases hsame : given = name
      · subst hsame
        simp [hname]
      · have hother : (name == given) = false := by simpa using Ne.symm hsame
        simp [hname, hsame, List.lookup_cons, hother]

end PackedRatings.EventNames
