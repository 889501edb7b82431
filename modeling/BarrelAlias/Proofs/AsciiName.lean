import BarrelAlias.Proofs.Qualify
import BarrelAlias.Proofs.Spelling
import BarrelAlias.Text.Identifier

/-!
Names of ASCII characters. Where the registered names are such names and the origins are ASCII texts,
every name that a clause is published under is such a name too: it is a registered name, or one that was
made of the words of an origin and a registered name, perhaps with a number after it.
-/

namespace BarrelAlias

namespace Text

def isAscii (s : String) : Bool := s.toList.all (·.toNat < 128)

def isNameStart (c : Char) : Bool := c.isAlpha || c == '$' || c == '_'

def isNamePart (c : Char) : Bool := c.isAlphanum || c == '$' || c == '_'

/-- A name of ASCII characters: it is not empty and does not begin with a digit. -/
def isAsciiName (s : String) : Bool := s.toList.head?.any isNameStart && s.toList.all isNamePart

theorem isNamePart_of_isNameStart {c : Char} (h : isNameStart c) : isNamePart c := by
  simp only [isNameStart, isNamePart, Char.isAlphanum, Bool.or_eq_true] at *
  tauto

/-- A part of a name that cannot begin it is a digit. -/
theorem isNameStart_of_isNamePart {c : Char} (h : isNamePart c) (hd : ¬ c.isDigit) :
    isNameStart c := by
  simp only [isNameStart, isNamePart, Char.isAlphanum, Bool.or_eq_true] at *
  tauto

theorem toNat_lt_of_isNamePart {c : Char} (h : isNamePart c) : c.toNat < 128 := by
  have halpha : c.isAlpha =
      (decide (c.val ≥ 'A'.val ∧ c.val ≤ 'Z'.val) ||
        decide (c.val ≥ 'a'.val) && decide (c.val ≤ 'z'.val)) := rfl
  simp only [isNamePart, Char.isAlphanum, halpha, Char.isDigit,
    Bool.or_eq_true, Bool.and_eq_true, decide_eq_true_eq, beq_iff_eq, ge_iff_le,
    UInt32.le_iff_toNat_le] at h
  rcases h with ((h | h) | rfl) | rfl
  · have hval : c.toNat = c.val.toNat := rfl
    have hz : 'z'.val.toNat = 122 := rfl
    have hZ : 'Z'.val.toNat = 90 := rfl
    omega
  · have hval : c.toNat = c.val.toNat := rfl
    have hnine : '9'.val.toNat = 57 := rfl
    omega
  · decide
  · decide

theorem isAsciiName_iff {s : String} : isAsciiName s ↔
    (∃ c cs, s.toList = c :: cs ∧ isNameStart c) ∧ ∀ c ∈ s.toList, isNamePart c := by
  rw [isAsciiName, Bool.and_eq_true, List.all_eq_true]
  cases s.toList with
  | nil => simp
  | cons c cs => simp

/-- What holds of every ASCII character holds of the parts of a name. -/
theorem of_isNamePart {P : Char → Prop} {c : Char} (hc : isNamePart c)
    (h : ∀ n < 128, P (Char.ofNat n)) : P c := by
  have hP := h c.toNat (toNat_lt_of_isNamePart hc)
  rwa [Char.ofNat_toNat] at hP

theorem not_isDigit_of_isNameStart {c : Char} (h : isNameStart c) : ¬ c.isDigit :=
  of_isNamePart (P := fun c => isNameStart c → ¬ c.isDigit) (isNamePart_of_isNameStart h)
    (by decide +kernel) h

theorem isNamePart_toUpper {c : Char} (h : isNamePart c) : isNamePart c.toUpper :=
  of_isNamePart (P := fun c => isNamePart c → isNamePart c.toUpper) h (by decide +kernel) h

theorem isNameStart_toUpper {c : Char} (h : isNameStart c) : isNameStart c.toUpper :=
  of_isNamePart (P := fun c => isNameStart c → isNameStart c.toUpper) (isNamePart_of_isNameStart h)
    (by decide +kernel) h

theorem upperChar_of_isNamePart {c : Char} (h : isNamePart c) : upperChar c = [c.toUpper] := by
  rw [upperChar, if_pos (toNat_lt_of_isNamePart h)]

theorem isNamePart_capitalizeFirst {s : String} (h : ∀ c ∈ s.toList, isNamePart c) :
    ∀ c ∈ (capitalizeFirst s).toList, isNamePart c := by
  unfold capitalizeFirst
  cases hs : s.toList with
  | nil => simp
  | cons c cs =>
    rw [hs, List.forall_mem_cons] at h
    simp only [upperChar_of_isNamePart h.1, String.toList_ofList, List.singleton_append,
      List.forall_mem_cons]
    exact ⟨isNamePart_toUpper h.1, h.2⟩

theorem isAsciiName_capitalizeFirst {s : String} (h : isAsciiName s) :
    isAsciiName (capitalizeFirst s) := by
  obtain ⟨⟨c, cs, hs, hc⟩, hparts⟩ := isAsciiName_iff.mp h
  refine isAsciiName_iff.mpr ⟨⟨c.toUpper, cs, ?_, isNameStart_toUpper hc⟩,
    isNamePart_capitalizeFirst hparts⟩
  simp [capitalizeFirst, hs, upperChar_of_isNamePart (isNamePart_of_isNameStart hc)]

/-- A name stays one with more parts after it. -/
theorem isAsciiName_append {s t : String} (h : isAsciiName s) (ht : ∀ c ∈ t.toList, isNamePart c) :
    isAsciiName (s ++ t) := by
  obtain ⟨⟨c, cs, hs, hc⟩, hparts⟩ := isAsciiName_iff.mp h
  refine isAsciiName_iff.mpr ⟨⟨c, cs ++ t.toList, by simp [hs], hc⟩, ?_⟩
  intro c' hc'
  rw [String.toList_append, List.mem_append] at hc'
  exact hc'.elim (hparts c') (ht c')

theorem isAsciiName_numbered {s : String} (h : isAsciiName s) (n : Nat) :
    isAsciiName (s ++ Nat.repr n) := by
  refine isAsciiName_append h ?_
  intro c hc
  rw [Nat.toList_repr] at hc
  have hdigit := Nat.isDigit_of_mem_toDigits (by omega) (by omega) hc
  simp [isNamePart, Char.isAlphanum, hdigit]

end Text

namespace Barrel

open Text

/-- Among ASCII characters those that may stand in a derived name are the parts of ASCII names. -/
theorem isNameChar_iff_ascii {c : Char} (hc : c.toNat < 128) : isNameChar c ↔ isNamePart c := by
  simp only [isNameChar, isNamePart, isLetterOrNumber_ascii hc, Bool.or_eq_true]
  tauto

/-- The words that a name is made of hold parts of a name only. -/
theorem isNamePart_of_mem_pieces {s piece : String} (h : isAscii s)
    (hp : piece ∈ ((s.toList.splitOnP (!isNameChar ·)).filter (· ≠ [])).map String.ofList) {c : Char}
    (hc : c ∈ piece.toList) : isNamePart c := by
  obtain ⟨cs, hcs, rfl⟩ := List.mem_map.mp hp
  rw [String.toList_ofList] at hc
  obtain ⟨hmem, hname⟩ := mem_splitOnP (List.mem_filter.mp hcs).1 hc
  rw [isAscii, List.all_eq_true] at h
  exact (isNameChar_iff_ascii (by simpa using h c hmem)).mp (by simpa using hname)

/-- The words of an ASCII text make up a name, unless there are none. -/
theorem identifierOf_ascii {s : String} (h : isAscii s) :
    identifierOf s = "" ∨ isAsciiName (identifierOf s) := by
  have hpieces := fun piece => @isNamePart_of_mem_pieces s piece h
  unfold identifierOf
  generalize ((s.toList.splitOnP (!isNameChar ·)).filter (· ≠ [])).map String.ofList = pieces
    at hpieces ⊢
  cases pieces with
  | nil => exact .inl rfl
  | cons p ps =>
    have hjoined : ∀ c ∈ (p ++ String.join (ps.map capitalizeFirst)).toList, isNamePart c := by
      intro c hc
      simp only [String.toList_append, List.mem_append, String.toList_join, List.mem_flatMap] at hc
      rcases hc with hc | ⟨q, hq, hc⟩
      · exact hpieces p (List.mem_cons_self ..) hc
      · obtain ⟨p', hp', rfl⟩ := List.mem_map.mp hq
        have hparts := fun c => @hpieces p' (List.mem_cons_of_mem p hp') c
        exact isNamePart_capitalizeFirst hparts c hc
    dsimp only
    generalize p ++ String.join (ps.map capitalizeFirst) = joined at hjoined ⊢
    cases hcs : joined.toList with
    | nil => exact .inl (by simpa using hcs)
    | cons c cs =>
      right
      have hc : isNamePart c := hjoined c (by simp [hcs])
      dsimp only
      split
      · exact isAsciiName_append (by decide) hjoined
      · next hdigit =>
        exact isAsciiName_iff.mpr ⟨⟨c, cs, hcs, isNameStart_of_isNamePart hc hdigit⟩, hjoined⟩

theorem isAscii_of_mem_segments {specifier name segment : String} (h : isAscii specifier)
    (hs : segment ∈ tellingSegments specifier name) : isAscii segment := by
  rw [tellingSegments, List.mem_reverse] at hs
  have hs := (List.dropWhile_sublist _).mem hs
  rw [List.mem_reverse, segments, List.mem_filter] at hs
  obtain ⟨piece, hpiece, rfl⟩ := List.mem_map.mp hs.1
  rw [isAscii, List.all_eq_true] at *
  intro c hc
  rw [String.toList_ofList] at hc
  exact h c ((mem_splitOn_slash hpiece).2 c hc)

theorem isAscii_intercalate {sep : String} (hsep : isAscii sep) {ns : List String}
    (h : ∀ n ∈ ns, isAscii n) : isAscii (sep.intercalate ns) := by
  simp only [isAscii, List.all_eq_true] at *
  intro c hc
  by_contra hlarge
  exact not_mem_intercalate (fun hmem => hlarge (hsep c hmem))
    (fun n hn hmem => hlarge (h n hn c hmem)) hc

/-- The names that an ASCII origin offers for a name are names. -/
theorem isAsciiName_of_mem_candidates {specifier name candidate : String} (h : isAscii specifier)
    (hname : isAsciiName name) (hc : candidate ∈ candidates specifier name) :
    isAsciiName candidate := by
  have hsegments := fun segment => @isAscii_of_mem_segments specifier name segment h
  unfold candidates at hc
  cases hsegs : tellingSegments specifier name with
  | nil =>
    rw [hsegs] at hc
    rw [List.mem_singleton.mp hc]
    exact hname
  | cons first rest =>
    rw [hsegs] at hc hsegments
    obtain ⟨i, _, rfl⟩ := List.mem_map.mp hc
    generalize first :: rest = segs at hsegments ⊢
    have hcapital := isAsciiName_capitalizeFirst hname
    have hascii : isAscii ("-".intercalate (segs.drop (segs.length - (i + 1)))) :=
      isAscii_intercalate (by decide) fun segment hs => hsegments segment (List.mem_of_mem_drop hs)
    rcases identifierOf_ascii hascii with hempty | hident
    · rw [qualified, hempty, String.empty_append]
      exact hcapital
    · exact isAsciiName_append hident (isAsciiName_iff.mp hcapital).2

namespace Choice

/-- All names that an origin may take are names of this kind. -/
def Offers (P : String → Prop) (c : Choice) : Prop := P c.pick ∧ ∀ a ∈ c.wider, P a

variable {P : String → Prop}

theorem Offers.widen {c : Choice} (h : c.Offers P) : c.widen.Offers P := by
  unfold Choice.widen
  cases hw : c.wider with
  | nil => exact h
  | cons a as =>
    have hall := h.2
    rw [hw, List.forall_mem_cons] at hall
    exact hall

theorem offers_step {taken : List String} {cs : List Choice} (h : ∀ c ∈ cs, c.Offers P) :
    ∀ c ∈ step taken cs, c.Offers P := by
  intro c hc
  obtain ⟨c', hc', rfl⟩ := List.mem_map.mp hc
  split
  · exact (h c' hc').widen
  · exact h c' hc'

theorem offers_settle {taken : List String} {fuel : Nat} {cs : List Choice}
    (h : ∀ c ∈ cs, c.Offers P) : ∀ c ∈ settle taken fuel cs, c.Offers P := by
  induction fuel generalizing cs with
  | zero => exact h
  | succ fuel ih =>
    rw [settle]
    split
    · exact h
    · exact ih (offers_step h)

theorem offers_first {name origin : String} (h : ∀ a ∈ candidates origin name, P a) (hn : P name) :
    (first name origin).Offers P := by
  unfold first
  split
  · exact ⟨hn, by simp⟩
  · next c cs hcs =>
    rw [hcs, List.forall_mem_cons] at h
    exact h

end Choice

def Naming.Gives (P : String → Prop) (n : Naming) : Prop := ∀ k a, n.aliases.find? k = some a → P a

theorem Naming.Gives.assign {P : String → Prop} {n : Naming} (h : n.Gives P)
    (hnumber : ∀ a i, P a → P (a ++ Nat.repr i)) (name : String) {c : Choice} (hc : P c.pick) :
    (n.assign name c).Gives P := by
  intro k a hk
  unfold Naming.assign at hk
  split at hk
  all_goals
    rw [Table.find?_insert] at hk
    split at hk
  · rw [← Option.some.inj hk]
    exact hnumber c.pick _ hc
  · exact h k a hk
  · rw [← Option.some.inj hk]
    exact hc
  · exact h k a hk

theorem Naming.Gives.foldl_assign {P : String → Prop} {n : Naming} (h : n.Gives P)
    (hnumber : ∀ a i, P a → P (a ++ Nat.repr i)) (name : String) {cs : List Choice}
    (hcs : ∀ c ∈ cs, P c.pick) : (cs.foldl (Naming.assign name) n).Gives P := by
  induction cs generalizing n with
  | nil => exact h
  | cons c cs ih =>
    rw [List.forall_mem_cons] at hcs
    exact ih (h.assign hnumber name hcs.1) hcs.2

namespace Registry

variable {P : String → Prop}

theorem gives_foldl_qualifyName {r : Registry} (hnumber : ∀ a i, P a → P (a ++ Nat.repr i))
    {names : List String} (hnames : ∀ name ∈ names, P name)
    (horigins : ∀ name ∈ names, ∀ o ∈ r.originsOf name, ∀ a ∈ candidates o name, P a)
    {n : Naming} (h : n.Gives P) : (names.foldl r.qualifyName n).Gives P := by
  induction names generalizing n with
  | nil => exact h
  | cons name names ih =>
    rw [List.forall_mem_cons] at hnames horigins
    refine ih hnames.2 horigins.2 (h.foldl_assign hnumber name fun c hc => ?_)
    refine (Choice.offers_settle ?_ c hc).1
    intro c' hc'
    obtain ⟨o, ho, rfl⟩ := List.mem_map.mp hc'
    exact Choice.offers_first (horigins.1 o ho) hnames.1

/-- A name is published as it is, or under a name that its origins offer, perhaps with a number. -/
theorem published_of_offered {r : Registry} (hnumber : ∀ a i, P a → P (a ++ Nat.repr i))
    (hnames : ∀ name ∈ r.overloadedNames, P name)
    (horigins : ∀ name ∈ r.overloadedNames, ∀ o ∈ r.originsOf name, ∀ a ∈ candidates o name, P a)
    {origin name : String} (hname : P name) : P (published r.qualify origin name) := by
  have hgives : r.qualify.Gives P :=
    gives_foldl_qualifyName hnumber hnames horigins (by simp [Naming.Gives])
  unfold published
  cases hk : r.qualify.aliases.find? (origin, name) with
  | none => exact hname
  | some a => exact hgives _ a hk

end Registry

end Barrel

end BarrelAlias
