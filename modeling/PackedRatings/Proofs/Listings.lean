import Mathlib.Data.List.Forall2
import PackedRatings.Listing
import PackedRatings.Proofs.Number.DecimalTexts

/-!
# Listings tell values apart

The text of a number or a key ends where a stop follows it: a separator or a closing bracket.
So the text of a list or a record falls into the texts of its parts, and two values with the same
text are the same, up to not-a-numbers, which share one name.
-/
namespace PackedRatings.Listing

def Stop (c : Char) : Prop :=
  c ∈ [',', ':', ' ', ')', ']', '\x7d']

instance : DecidablePred Stop := fun c =>
  inferInstanceAs (Decidable (c ∈ [',', ':', ' ', ')', ']', '\x7d']))

/-- Nothing follows, or a stop. -/
def Ends (rest : List Char) : Prop :=
  ∀ c ∈ rest.head?, Stop c

theorem ends_nil : Ends [] := by
  simp [Ends]

theorem ends_cons {c : Char} (h : Stop c) (rest : List Char) : Ends (c :: rest) := by
  simpa [Ends] using h

theorem not_stop_of_numeric {c : Char} (h : Decimal.Numeric c) : ¬ Stop c := by
  intro hstop
  simp only [Stop, List.mem_cons, List.not_mem_nil, or_false] at hstop
  rcases hstop with rfl | rfl | rfl | rfl | rfl | rfl <;> simp [Decimal.Numeric] at h

/-- A value can be told from its text, up to `alike`, where the text stands before a stop. -/
structure Legible {α : Type u} (alike : α → α → Prop) (text : α → String) : Prop where
  same : ∀ {a b}, alike a b → text a = text b
  begins : ∀ a, ∃ c rest, (text a).toList = c :: rest ∧ ¬ Stop c
  split : ∀ {a b rest rest'}, Ends rest → Ends rest' →
    (text a).toList ++ rest = (text b).toList ++ rest' → alike a b ∧ rest = rest'

namespace Legible

variable {α : Type u} {β : Type v} {alike : α → α → Prop} {text : α → String}

theorem eq_iff (h : Legible alike text) {a b : α} : text a = text b ↔ alike a b := by
  refine ⟨fun heq => ?_, h.same⟩
  have hlist : (text a).toList ++ [] = (text b).toList ++ [] := by rw [heq]
  exact (h.split ends_nil ends_nil hlist).1

theorem of_iff {alike' : α → α → Prop} (h : Legible alike text)
    (hiff : ∀ a b, alike a b ↔ alike' a b) : Legible alike' text where
  same hab := h.same ((hiff _ _).2 hab)
  begins := h.begins
  split hrest hrest' heq := (h.split hrest hrest' heq).imp_left (hiff _ _).1

theorem comap (h : Legible alike text) (f : β → α) :
    Legible (fun a b => alike (f a) (f b)) fun a => text (f a) where
  same hab := h.same hab
  begins a := h.begins (f a)
  split hrest hrest' heq := h.split hrest hrest' heq

theorem takeWhile_append {word rest : List Char} (hword : ∀ c ∈ word, ¬ Stop c)
    (hrest : Ends rest) : (word ++ rest).takeWhile (fun c => !decide (Stop c)) = word := by
  rw [List.takeWhile_append_of_pos (by simpa using hword)]
  cases rest with
  | nil => simp
  | cons c rest =>
    have hc : Stop c := hrest c rfl
    simp [hc]

/-- A text without stops in it ends at the first of them. -/
theorem of_words (hstop : ∀ a, ∀ c ∈ (text a).toList, ¬ Stop c) (hne : ∀ a, text a ≠ "")
    (heq : ∀ a b, text a = text b ↔ alike a b) : Legible alike text where
  same hab := (heq _ _).2 hab
  begins a := by
    obtain ⟨c, rest, hlist⟩ := List.exists_cons_of_ne_nil
      (mt String.toList_eq_nil_iff.1 (hne a))
    exact ⟨c, rest, hlist, hstop a c (hlist ▸ List.mem_cons_self)⟩
  split := by
    intro a b rest rest' hrest hrest' h
    have hword := congrArg (List.takeWhile fun c => !decide (Stop c)) h
    rw [takeWhile_append (hstop a) hrest, takeWhile_append (hstop b) hrest'] at hword
    rw [hword] at h
    exact ⟨(heq _ _).1 (String.toList_inj.1 hword), List.append_cancel_left h⟩

/-- Two texts with a mark between them. -/
theorem pair {alike' : α → α → Prop} {text' : α → String} (h : Legible alike text)
    (h' : Legible alike' text') (mark : String) {stop : Char} {tail : List Char}
    (hmark : mark.toList = stop :: tail) (hstop : Stop stop) :
    Legible (fun a b => alike a b ∧ alike' a b) fun a => text a ++ mark ++ text' a where
  same hab := by simp only [h.same hab.1, h'.same hab.2]
  begins a := by
    obtain ⟨c, rest, hlist, hc⟩ := h.begins a
    exact ⟨c, _, by simp [String.toList_append, hlist]; rfl, hc⟩
  split := by
    intro a b rest rest' hrest hrest' heq
    simp only [String.toList_append, hmark, List.append_assoc] at heq
    obtain ⟨hab, htail⟩ := h.split (ends_cons hstop _) (ends_cons hstop _) heq
    obtain ⟨hab', hsame⟩ := h'.split hrest hrest'
      (List.append_cancel_left (List.cons.inj htail).2)
    exact ⟨⟨hab, hab'⟩, hsame⟩

def followers (text : α → String) (items : List α) : List Char :=
  items.flatMap fun a => ',' :: ' ' :: (text a).toList

theorem toList_intercalate_cons (text : α → String) (a : α) (items : List α) :
    (String.intercalate ", " ((a :: items).map text)).toList =
      (text a).toList ++ followers text items := by
  induction items generalizing a with
  | nil => simp [followers]
  | cons b items ih =>
    rw [List.map_cons, List.map_cons, String.intercalate_cons_cons, ← List.map_cons,
      String.toList_append, String.toList_append, ih]
    simp [followers]

theorem ends_followers {closing : List Char} (h : Ends closing) (items : List α) :
    Ends (followers text items ++ closing) := by
  cases items with
  | nil => exact h
  | cons a items => exact ends_cons (by decide) _

theorem split_followers (h : Legible alike text) {stop : Char} (hstop : Stop stop)
    (hcomma : stop ≠ ',') {items items' : List α} {rest rest' : List Char}
    (heq : followers text items ++ stop :: rest = followers text items' ++ stop :: rest') :
    List.Forall₂ alike items items' ∧ rest = rest' := by
  induction items generalizing items' with
  | nil =>
    cases items' with
    | nil => exact ⟨.nil, (List.cons.inj heq).2⟩
    | cons b items' => exact absurd (List.cons.inj heq).1 hcomma
  | cons a items ih =>
    cases items' with
    | nil => exact absurd (List.cons.inj heq).1.symm hcomma
    | cons b items' =>
      simp only [followers, List.flatMap_cons, List.cons_append, List.cons.injEq, true_and,
        List.append_assoc] at heq
      obtain ⟨hab, htail⟩ := h.split (ends_followers (ends_cons hstop _) items)
        (ends_followers (ends_cons hstop _) items') heq
      obtain ⟨hitems, hrest⟩ := ih htail
      exact ⟨.cons hab hitems, hrest⟩

/-- Any number of texts with commas between them, in brackets of some kind. -/
theorem list (h : Legible alike text) {whole : List String → String} (opening closing : Char)
    (hwhole : ∀ texts, (whole texts).toList =
      opening :: (String.intercalate ", " texts).toList ++ [closing])
    (hopening : ¬ Stop opening) (hclosing : Stop closing) (hcomma : closing ≠ ',') :
    Legible (List.Forall₂ alike) fun items => whole (items.map text) where
  same := by
    intro items items' hitems
    have htexts : items.map text = items'.map text := by
      induction hitems with
      | nil => rfl
      | cons hab _ ih => rw [List.map_cons, List.map_cons, h.same hab, ih]
    rw [htexts]
  begins items := ⟨opening, _, hwhole _, hopening⟩
  split := by
    intro items items' rest rest' hrest hrest' heq
    simp only [hwhole, List.cons_append, List.cons.injEq, true_and, List.append_assoc,
      List.nil_append] at heq
    cases items with
    | nil =>
      cases items' with
      | nil => exact ⟨.nil, (List.cons.inj heq).2⟩
      | cons b items' =>
        obtain ⟨c, tail, hlist, hc⟩ := h.begins b
        rw [toList_intercalate_cons, hlist] at heq
        exact absurd ((List.cons.inj heq).1 ▸ hclosing) hc
    | cons a items =>
      cases items' with
      | nil =>
        obtain ⟨c, tail, hlist, hc⟩ := h.begins a
        rw [toList_intercalate_cons, hlist] at heq
        exact absurd ((List.cons.inj heq).1.symm ▸ hclosing) hc
      | cons b items' =>
        simp only [toList_intercalate_cons, List.append_assoc] at heq
        obtain ⟨hab, htail⟩ := h.split (ends_followers (ends_cons hclosing _) items)
          (ends_followers (ends_cons hclosing _) items') heq
        obtain ⟨hitems, hsame⟩ := h.split_followers hclosing hcomma htail
        exact ⟨.cons hab hitems, hsame⟩

theorem braces (h : Legible alike text) :
    Legible (List.Forall₂ alike) fun items => Listing.braces (items.map text) :=
  h.list '\x7b' '\x7d'
    (fun _ => by simp [Listing.braces, String.toList_append]) (by decide) (by decide) (by decide)

theorem brackets (h : Legible alike text) :
    Legible (List.Forall₂ alike) fun items => Listing.brackets (items.map text) :=
  h.list '[' ']'
    (fun _ => by simp [Listing.brackets, String.toList_append]) (by decide) (by decide) (by decide)

theorem optional (h : Legible alike text) :
    Legible (Option.Rel alike) fun a => Listing.optional (a.map text) where
  same := by
    rintro _ _ (hab | _)
    · simp only [Option.map_some, h.same hab]
    · rfl
  begins a := by
    cases a with
    | none => exact ⟨'N', ['o', 'n', 'e'], by simp [Listing.optional], by decide⟩
    | some a => exact ⟨'S', _, by simp [Listing.optional, String.toList_append]; rfl, by decide⟩
  split := by
    intro a b rest rest' hrest hrest' heq
    cases a with
    | none =>
      cases b with
      | none => exact ⟨.none, List.append_cancel_left heq⟩
      | some b => simp [Listing.optional, String.toList_append] at heq
    | some a =>
      cases b with
      | none => simp [Listing.optional, String.toList_append] at heq
      | some b =>
        simp only [Option.map_some, Listing.optional, String.toList_append,
          List.append_assoc] at heq
        obtain ⟨hab, htail⟩ := h.split (ends_cons (by decide) _) (ends_cons (by decide) _)
          (List.append_cancel_left heq)
        exact ⟨.some hab, (List.cons.inj htail).2⟩

end Legible

structure Field (α : Type u) where
  name : String
  alike : α → α → Prop
  text : α → String
  legible : Legible alike text

namespace Field

variable {α : Type u} {a b : α} {rest rest' : List Char}

def item (a : α) (field : Field α) : String :=
  field.name ++ ": " ++ field.text a

theorem split_item (field : Field α) (hrest : Ends rest) (hrest' : Ends rest')
    (heq : (field.item a).toList ++ rest = (field.item b).toList ++ rest') :
    field.alike a b ∧ rest = rest' := by
  simp only [item, String.toList_append, List.append_assoc] at heq
  exact field.legible.split hrest hrest'
    (List.append_cancel_left (List.append_cancel_left heq))

theorem split_followers {fields : List (Field α)} (hrest : Ends rest) (hrest' : Ends rest')
    (heq : Legible.followers (item a) fields ++ rest = Legible.followers (item b) fields ++ rest') :
    (∀ field ∈ fields, field.alike a b) ∧ rest = rest' := by
  induction fields with
  | nil => exact ⟨by simp, heq⟩
  | cons field fields ih =>
    simp only [Legible.followers, List.flatMap_cons, List.cons_append, List.cons.injEq, true_and,
      List.append_assoc] at heq
    obtain ⟨hab, htail⟩ := field.split_item (Legible.ends_followers hrest fields)
      (Legible.ends_followers hrest' fields) heq
    obtain ⟨hfields, hsame⟩ := ih htail
    exact ⟨List.forall_mem_cons.2 ⟨hab, hfields⟩, hsame⟩

end Field

theorem Legible.record {α : Type u} (name : String) {c : Char} {tail : List Char}
    (hname : name.toList = c :: tail) (hc : ¬ Stop c) (fields : List (Field α)) :
    Legible (fun a b => ∀ field ∈ fields, field.alike a b) fun a =>
      Listing.record name (fields.map fun field => (field.name, field.text a)) where
  same := by
    intro a b hab
    have hfields : (fields.map fun field => (field.name, field.text a)) =
        fields.map fun field => (field.name, field.text b) :=
      List.map_congr_left fun field hfield => by rw [field.legible.same (hab field hfield)]
    rw [hfields]
  begins a := ⟨c, _, by simp [Listing.record, String.toList_append, hname]; rfl, hc⟩
  split := by
    intro a b rest rest' hrest hrest' heq
    have hitems : ∀ a : α, (Listing.record name (fields.map fun field =>
        (field.name, field.text a))).toList = (name ++ " \x7b ").toList ++
          ((String.intercalate ", " (fields.map (Field.item a))).toList ++ [' ', '\x7d']) := by
      intro a
      simp [Listing.record, String.toList_append, Function.comp_def, Field.item]
    simp only [hitems, List.append_assoc] at heq
    have hinner := List.append_cancel_left heq
    cases fields with
    | nil => exact ⟨by simp, by simpa using hinner⟩
    | cons field fields =>
      simp only [toList_intercalate_cons, List.append_assoc] at hinner
      obtain ⟨hab, htail⟩ := field.split_item (ends_followers (ends_cons (by decide) _) fields)
        (ends_followers (ends_cons (by decide) _) fields) hinner
      obtain ⟨hfields, hsame⟩ := Field.split_followers (ends_cons (by decide) _)
        (ends_cons (by decide) _) htail
      exact ⟨List.forall_mem_cons.2 ⟨hab, hfields⟩, by simpa using hsame⟩

section Numbers

/-- Not-a-numbers are listed by one name. -/
def Alike (x y : Binary64) : Prop :=
  x = y ∨ x.isNaN = true ∧ y.isNaN = true

/-- The text behind the sign of a number that is not a not-a-number. -/
inductive Unsigned (m : ℕ) : List Char → Prop
  | infinite (h : m = Binary64.infiniteMagnitude) : Unsigned m ['i', 'n', 'f']
  | finite {written : List Char} (h : Decimal.WritesMagnitude m written) : Unsigned m written

namespace Unsigned

variable {m n : ℕ} {body : List Char}

theorem begins (h : Unsigned m body) :
    ∃ c rest, body = c :: rest ∧ (c = 'i' ∨ c.isDigit = true) := by
  cases h with
  | infinite h => exact ⟨'i', _, rfl, .inl rfl⟩
  | finite h =>
    obtain ⟨c, rest, hbody, hc⟩ := h.plain.first
    exact ⟨c, rest, hbody, .inr hc⟩

theorem not_stop (h : Unsigned m body) : ∀ c ∈ body, ¬ Stop c := by
  cases h with
  | infinite h => simp [Stop]
  | finite h => exact fun c hc => not_stop_of_numeric (h.plain.numeric c hc)

theorem unique (h : Unsigned m body) (h' : Unsigned n body) : m = n := by
  cases h with
  | infinite h =>
    cases h' with
    | infinite h' => rw [h, h']
    | finite h' =>
      obtain ⟨c, rest, hbody, hc⟩ := h'.plain.first
      cases hbody
      cases hc
  | finite h =>
    cases h' with
    | infinite h' =>
      obtain ⟨c, rest, hbody, hc⟩ := h.plain.first
      cases hbody
      cases hc
    | finite h' => exact h.rounds.unique h'.rounds

end Unsigned

theorem number_of_isNaN {x : Binary64} (h : x.isNaN = true) : number x = "NaN" := by
  simp only [number, Decimal.Style.text, h]
  rfl

theorem exists_unsigned {x : Binary64} (h : x.isNaN = false) :
    ∃ body, (number x).toList = (if x.negative then ['-'] else []) ++ body ∧
      Unsigned x.magnitude body := by
  have hsign : ∀ written : List Char,
      ((if x.negative then "-" else "") ++ String.ofList written).toList =
        (if x.negative then ['-'] else []) ++ written := by
    intro written
    cases x.negative <;> simp
  rw [Binary64.isNaN, decide_eq_false_iff_not, Nat.not_lt] at h
  rcases h.lt_or_eq with hfinite | hinfinite
  · obtain ⟨written, htext, hwrites⟩ :=
      Decimal.exists_text_eq numberStyle (decide_eq_true hfinite)
    exact ⟨written, by rw [number, htext, hsign], .finite hwrites⟩
  · have hnan : x.isNaN = false := decide_eq_false (Nat.not_lt.2 h)
    have hinf : x.isInfinite = true := decide_eq_true hinfinite
    refine ⟨['i', 'n', 'f'], ?_, .infinite hinfinite⟩
    rw [← hsign]
    simp only [number, Decimal.Style.text, hnan, hinf]
    rfl

theorem number_ne_nan {x : Binary64} (h : x.isNaN = false) : number x ≠ "NaN" := by
  intro heq
  obtain ⟨body, hlist, hbody⟩ := exists_unsigned h
  obtain ⟨c, rest, rfl, hc⟩ := hbody.begins
  rw [heq] at hlist
  cases hsign : x.negative with
  | true =>
    rw [hsign] at hlist
    exact absurd (List.cons.inj hlist).1 (by decide)
  | false =>
    rw [hsign] at hlist
    rw [← (List.cons.inj hlist).1] at hc
    exact absurd hc (by decide)

theorem eq_of_number_eq {x y : Binary64} (hx : x.isNaN = false) (hy : y.isNaN = false)
    (h : number x = number y) : x = y := by
  obtain ⟨body, hlist, hbody⟩ := exists_unsigned hx
  obtain ⟨body', hlist', hbody'⟩ := exists_unsigned hy
  have heq : (if x.negative then ['-'] else []) ++ body =
      (if y.negative then ['-'] else []) ++ body' := by
    rw [← hlist, ← hlist', h]
  have hminus : ∀ {m : ℕ} {body rest : List Char}, Unsigned m body → body ≠ '-' :: rest := by
    rintro m body rest hbody rfl
    obtain ⟨c, rest, hcons, hc⟩ := hbody.begins
    rw [← (List.cons.inj hcons).1] at hc
    exact absurd hc (by decide)
  have hsign : x.negative = y.negative := by
    cases hxneg : x.negative with
    | true =>
      cases hyneg : y.negative with
      | true => rfl
      | false => exact absurd (by simpa [hxneg, hyneg] using heq.symm) (hminus hbody')
    | false =>
      cases hyneg : y.negative with
      | true => exact absurd (by simpa [hxneg, hyneg] using heq) (hminus hbody)
      | false => rfl
  rw [hsign] at heq
  have hmagnitude := hbody.unique (List.append_cancel_left heq ▸ hbody')
  exact Binary64.rank_injective (by rw [Binary64.rank, Binary64.rank, hsign, hmagnitude])

/-- The text of a number says which it is. -/
theorem legible_number : Legible Alike number := by
  refine .of_words (fun x c hc => ?_) (fun x hempty => ?_) fun x y => ⟨fun h => ?_, ?_⟩
  · cases hnan : x.isNaN with
    | true =>
      rw [number_of_isNaN hnan] at hc
      have hname : ∀ c ∈ "NaN".toList, ¬ Stop c := by simp [Stop]
      exact hname c hc
    | false =>
      obtain ⟨body, hlist, hbody⟩ := exists_unsigned hnan
      rw [hlist, List.mem_append] at hc
      rcases hc with hsign | hc
      · split at hsign
        · rw [List.mem_singleton.1 hsign]
          decide
        · cases hsign
      · exact hbody.not_stop c hc
  · cases hnan : x.isNaN with
    | true => exact absurd (number_of_isNaN hnan ▸ hempty) (by decide)
    | false =>
      obtain ⟨body, hlist, hbody⟩ := exists_unsigned hnan
      obtain ⟨c, rest, rfl, -⟩ := hbody.begins
      rw [hempty] at hlist
      simp at hlist
  · cases hx : x.isNaN with
    | true =>
      cases hy : y.isNaN with
      | true => exact .inr ⟨hx, hy⟩
      | false => exact absurd (h ▸ number_of_isNaN hx) (number_ne_nan hy)
    | false =>
      cases hy : y.isNaN with
      | true => exact absurd (h.symm ▸ number_of_isNaN hy) (number_ne_nan hx)
      | false => exact .inl (eq_of_number_eq hx hy h)
  · rintro (rfl | ⟨hx, hy⟩)
    · rfl
    · rw [number_of_isNaN hx, number_of_isNaN hy]

example : number ⟨0x3fb999999999999a⟩ = "0.1" := by decide +kernel

example : number ⟨0x4341c37937e08000⟩ = "1e16" := by decide +kernel

end Numbers

theorem legible_int : Legible (· = ·) (fun n : ℤ => toString n) := by
  refine .of_words (fun n c hc => ?_) (fun n hempty => ?_) fun n n' => ⟨fun h => ?_, ?_⟩
  · exact not_stop_of_numeric (Decimal.numeric_toString n c hc)
  · have hlist := Decimal.toList_toString n
    rw [hempty] at hlist
    simp at hlist
  · rw [← Decimal.exponentOf_toString n, h, Decimal.exponentOf_toString]
  · rintro rfl
    rfl

theorem legible_nat : Legible (· = ·) (fun n : ℕ => toString n) :=
  (legible_int.comap Int.ofNat).of_iff fun _ _ => Int.ofNat_inj

theorem legible_key : Legible (· = ·) key :=
  (legible_int.comap Int64.toInt).of_iff fun _ _ => Int64.toInt_inj

theorem legible_bool : Legible (· = ·) bool := by
  refine .of_words (fun b => ?_) (fun b => ?_) fun b b' => ?_
  · cases b <;> simp [bool, Stop]
  · cases b <;> simp [bool]
  · cases b <;> cases b' <;> simp [bool]

def escape (c : Char) : List Char :=
  if c == '"' || c == '\\' then ['\\', c] else [c]

theorem toList_quoted (s : String) :
    (quoted s).toList = '"' :: (s.toList.flatMap escape ++ ['"']) := by
  simp only [quoted, String.toList_append, String.toList_ofList]
  rfl

/-- The first quote that is not escaped closes a text. -/
theorem split_escaped {text text' rest rest' : List Char}
    (h : text.flatMap escape ++ '"' :: rest = text'.flatMap escape ++ '"' :: rest') :
    text = text' ∧ rest = rest' := by
  induction text generalizing text' with
  | nil =>
    cases text' with
    | nil => exact ⟨rfl, (List.cons.inj h).2⟩
    | cons d text' =>
      simp only [List.flatMap_cons, escape] at h
      grind
  | cons c text ih =>
    cases text' with
    | nil =>
      simp only [List.flatMap_cons, escape] at h
      grind
    | cons d text' =>
      have hcd : c = d ∧ text.flatMap escape ++ '"' :: rest =
          text'.flatMap escape ++ '"' :: rest' := by
        rw [List.flatMap_cons, List.flatMap_cons, List.append_assoc, List.append_assoc] at h
        revert h
        generalize text.flatMap escape ++ '"' :: rest = more
        generalize text'.flatMap escape ++ '"' :: rest' = more'
        grind [escape]
      obtain ⟨htext, hrest⟩ := ih hcd.2
      exact ⟨by rw [hcd.1, htext], hrest⟩

theorem legible_quoted : Legible (· = ·) quoted where
  same := by
    rintro s _ rfl
    rfl
  begins s := ⟨'"', _, toList_quoted s, by decide⟩
  split := by
    intro s t rest rest' _ _ heq
    simp only [toList_quoted, List.cons_append, List.cons.injEq, true_and, List.append_assoc,
      List.nil_append] at heq
    obtain ⟨htext, hrest⟩ := split_escaped heq
    exact ⟨String.toList_inj.1 htext, hrest⟩

theorem legible_keys : Legible (fun w w' => w.toList = w'.toList) keys :=
  (legible_key.braces.comap KeyWindow.toList).of_iff fun _ _ => by rw [List.forall₂_eq_eq_eq]

theorem legible_rows : Legible (· = ·) rows :=
  legible_nat.brackets.of_iff fun _ _ => by rw [List.forall₂_eq_eq_eq]

theorem legible_entries :
    Legible (List.Forall₂ fun p q => p.1 = q.1 ∧ Alike p.2 q.2) entries := by
  have h := (legible_key.comap Prod.fst).pair (legible_number.comap Prod.snd) ": " rfl
    (by decide)
  have heq : entries = fun pairs => braces (pairs.map fun p => key p.1 ++ ": " ++ number p.2) := by
    funext pairs
    simp [entries, mapping, Function.comp_def]
  rw [heq]
  exact h.braces

theorem legible_table {n : ℕ} : Legible (fun t u => t.entries = u.entries) (table (n := n)) := by
  have hrun : Legible (· = ·) fun run : List (Fin n) => rows (run.map Fin.val) :=
    (legible_rows.comap (List.map Fin.val)).of_iff fun _ _ =>
      (List.map_injective_iff.2 Fin.val_injective).eq_iff
  have h := (legible_key.comap Prod.fst).pair (hrun.comap Prod.snd) ": " rfl (by decide)
  have heq : table (n := n) = fun t =>
      braces (t.entries.map fun p => key p.1 ++ ": " ++ rows (p.2.map Fin.val)) := by
    funext t
    simp [table, mapping, Function.comp_def]
  rw [heq]
  refine (h.braces.comap RunTable.entries).of_iff fun t u => ?_
  simp only [← Prod.ext_iff, List.forall₂_eq_eq_eq]

theorem legible_timestamp : Legible (· = ·) fun timestamp : Option Int64 =>
    optional (timestamp.map key) :=
  legible_key.optional.of_iff fun a b => by cases a <;> cases b <;> simp

theorem legible_rating : Legible (fun r s => r.user = s.user ∧ r.item = s.item ∧
    Alike r.value s.value ∧ r.timestamp = s.timestamp) rating :=
  (Legible.record "Rating" rfl (by decide)
    [⟨"user", _, _, legible_key.comap Rating.user⟩,
      ⟨"item", _, _, legible_key.comap Rating.item⟩,
      ⟨"value", _, _, legible_number.comap Rating.value⟩,
      ⟨"timestamp", _, _, legible_timestamp.comap Rating.timestamp⟩]).of_iff fun r s => by simp

theorem legible_selection : Legible (fun s t => List.Forall₂ (fun q r => q.user = r.user ∧
    q.item = r.item ∧ Alike q.value r.value ∧ q.timestamp = r.timestamp) s.ratings t.ratings)
    selection :=
  legible_rating.brackets.comap Selection.ratings

theorem legible_cursor : Legible (fun c d => c.remaining = d.remaining) cursor :=
  (Legible.record "RatingStream" rfl (by decide)
    [⟨"remaining", _, _, legible_nat.comap RatingCursor.remaining⟩]).of_iff fun c d => by simp

theorem legible_layout : Legible (· = ·) layout :=
  (Legible.record "BinaryFormat" rfl (by decide)
    [⟨"timestamps", _, _, legible_bool.comap RowLayout.timestamps⟩]).of_iff fun l m => by
      obtain ⟨_⟩ := l
      obtain ⟨_⟩ := m
      simp

theorem legible_packing : Legible (fun p q => p.path = q.path ∧ p.layout = q.layout ∧
    p.count = q.count ∧ p.failed = q.failed) packing :=
  (Legible.record "BinaryRatingPacker" rfl (by decide)
    [⟨"path", _, _, legible_quoted.comap Packing.path⟩,
      ⟨"format", _, _, legible_layout.comap Packing.layout⟩,
      ⟨"count", _, _, legible_nat.comap Packing.count⟩,
      ⟨"failed", _, _, legible_bool.comap Packing.failed⟩]).of_iff fun p q => by simp

end PackedRatings.Listing
