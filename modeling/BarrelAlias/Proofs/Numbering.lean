import BarrelAlias.Proofs.Searching

/-!
When a qualified name takes a number. The search leaves an origin that has a wider name with one that
nobody else holds and that is not taken, so it could only be numbered because a number made the name of
an origin before it equal to its own. Both names end with the name that they qualify; a text that ends
with itself followed by digits is made of digits; so this happens to names made of digits alone.
-/

namespace BarrelAlias

namespace Text

theorem toNat_of_isDigit {c : Char} (h : c.isDigit) : 48 ≤ c.toNat ∧ c.toNat ≤ 57 := by
  simpa [Char.isDigit, UInt32.le_iff_toNat_le] using h

theorem not_isDigit_ofNat {n : Nat} (h : 57 < n) : ¬ (Char.ofNat n).isDigit := by
  intro digit
  have range := toNat_of_isDigit digit
  by_cases valid : n.isValidChar
  · have same : (Char.ofNat n).toNat = n := by
      rw [Char.ofNat, dif_pos valid]
      rfl
    omega
  · have zero : (Char.ofNat n).toNat = 0 := by
      rw [Char.ofNat, dif_neg valid]
      rfl
    omega

theorem upperRuns_above : ∀ r ∈ upperRuns, 57 < (r.first : Int) + r.shift := by decide +kernel

theorem upperLong_above : ∀ e ∈ upperLong, e.2 ≠ [] ∧ ∀ n ∈ e.2, 57 < n := by decide +kernel

theorem moveBy_upperRuns_above {n : Nat} (h : 128 ≤ n) : 57 < moveBy upperRuns n := by
  unfold moveBy
  split
  · next r hr =>
    have hcovers := List.find?_some hr
    have habove := upperRuns_above r (List.mem_of_find?_eq_some hr)
    simp only [CaseRun.covers, Bool.and_eq_true, decide_eq_true_eq] at hcovers
    omega
  · omega

theorem upperChar_ne_nil (c : Char) : upperChar c ≠ [] := by
  unfold upperChar
  split
  · simp
  · split
    · next cs h =>
      obtain ⟨_, _, he, _⟩ := List.lookup_eq_some_iff.mp h
      have hmem : (c.toNat, cs) ∈ upperLong := by simp [he]
      simpa using (upperLong_above _ hmem).1
    · simp

/-- Only a digit has a digit in its capital form. -/
theorem isDigit_of_mem_upperChar {c d : Char} (h : d ∈ upperChar c) (hd : d.isDigit) : c.isDigit := by
  unfold upperChar at h
  split at h
  · rw [List.mem_singleton] at h
    subst h
    unfold Char.toUpper at hd
    split at hd
    · next hsmall =>
      -- the capital of a small letter is a letter
      simp only [Char.isDigit, Bool.and_eq_true, decide_eq_true_eq, ge_iff_le,
        UInt32.le_iff_toNat_le, UInt32.toNat_add] at hd hsmall
      have ha : 'a'.val.toNat = 97 := rfl
      have hz : 'z'.val.toNat = 122 := rfl
      have hshift : ('A'.val - 'a'.val).toNat = 2 ^ 32 - 32 := rfl
      have hnine : '9'.val.toNat = 57 := rfl
      omega
    · exact hd
  · next hascii =>
    split at h
    · next cs hlookup =>
      obtain ⟨_, _, he, _⟩ := List.lookup_eq_some_iff.mp hlookup
      have hmem : (c.toNat, cs) ∈ upperLong := by simp [he]
      obtain ⟨n, hn, rfl⟩ := List.mem_map.mp h
      exact absurd hd (not_isDigit_ofNat ((upperLong_above _ hmem).2 n hn))
    · rw [List.mem_singleton] at h
      subst h
      exact absurd hd (not_isDigit_ofNat (moveBy_upperRuns_above (by omega)))

theorem toList_capitalizeFirst {s : String} {c : Char} {cs : List Char} (h : s.toList = c :: cs) :
    (capitalizeFirst s).toList = upperChar c ++ cs := by
  unfold capitalizeFirst
  rw [h]
  simp

end Text

/-- A text that ends with itself followed by another text has only characters of that text. -/
theorem forall_mem_of_append_eq {α : Type} {P : α → Prop} {xs ys ends : List α} (hne : ends ≠ [])
    (hP : ∀ a ∈ ends, P a) {text : List α} (h : xs ++ text = ys ++ (text ++ ends)) :
    ∀ a ∈ text, P a := by
  induction hlen : text.length using Nat.strong_induction_on generalizing text xs ys with
  | _ n ih =>
    have hpos : 0 < ends.length := List.length_pos_of_ne_nil hne
    have hends : ends <:+ xs ++ text := ⟨ys ++ text, by rw [h, List.append_assoc]⟩
    have htext : text <:+ xs ++ text := List.suffix_append xs text
    rcases Nat.le_total text.length ends.length with hle | hle
    · -- the end is as long as the text, which is then a part of it
      intro a ha
      exact hP a ((List.suffix_of_suffix_length_le htext hends hle).subset ha)
    · -- the text ends with the end, and what stands before that is again such a text
      obtain ⟨front, rfl⟩ := List.suffix_of_suffix_length_le hends htext hle
      have hfront : xs ++ front = ys ++ (front ++ ends) := by
        have h' : (xs ++ front) ++ ends = (ys ++ (front ++ ends)) ++ ends := by
          simpa only [List.append_assoc] using h
        exact List.append_cancel_right h'
      rw [List.length_append] at hlen
      intro a ha
      rcases List.mem_append.mp ha with ha | ha
      · exact ih front.length (by omega) hfront rfl a ha
      · exact hP a ha

namespace Barrel

theorem isDigit_of_mem_repr {n : Nat} {c : Char} (h : c ∈ (Nat.repr n).toList) : c.isDigit := by
  rw [Nat.toList_repr] at h
  exact Nat.isDigit_of_mem_toDigits (by omega) (by omega) h

theorem toList_repr_ne_nil (n : Nat) : (Nat.repr n).toList ≠ [] := by
  rw [Nat.toList_repr]
  exact Nat.toDigits_ne_nil

section

variable {name : String} (hname : ∃ c ∈ name.toList, ¬ c.isDigit)
include hname

/-- A digit in the capital of the first character and digits behind it would be all of the name. -/
theorem not_isDigit_of_capital {c : Char} {cs : List Char} (hcs : name.toList = c :: cs)
    (hrest : ∀ d ∈ cs, d.isDigit) {d : Char} (hd : d ∈ Text.upperChar c) : ¬ d.isDigit := by
  intro hdigit
  obtain ⟨other, hother, hnot⟩ := hname
  rw [hcs] at hother
  rcases List.mem_cons.mp hother with rfl | hother
  · exact hnot (Text.isDigit_of_mem_upperChar hd hdigit)
  · exact hnot (hrest other hother)

theorem exists_toList_eq_cons : ∃ c cs, name.toList = c :: cs := by
  obtain ⟨other, hother, _⟩ := hname
  exact List.exists_cons_of_ne_nil (List.ne_nil_of_mem hother)

/-- A qualified name is not another one with a number: that takes a name made of digits. -/
theorem qualified_ne_numbered (before before' : String) (k : Nat) :
    before ++ Text.capitalizeFirst name ≠ before' ++ Text.capitalizeFirst name ++ Nat.repr k := by
  obtain ⟨c, cs, hcs⟩ := exists_toList_eq_cons hname
  intro heq
  have hl := congrArg String.toList heq
  simp only [String.toList_append, Text.toList_capitalizeFirst hcs, List.append_assoc] at hl
  have hall : ∀ d ∈ Text.upperChar c ++ cs, d.isDigit :=
    forall_mem_of_append_eq (toList_repr_ne_nil k) (fun d => isDigit_of_mem_repr)
      (by simpa only [List.append_assoc] using hl)
  obtain ⟨d, hd⟩ := List.exists_mem_of_ne_nil _ (Text.upperChar_ne_nil c)
  have hrest : ∀ d ∈ cs, d.isDigit := fun d hd => hall d (List.mem_append_right _ hd)
  exact not_isDigit_of_capital hname hcs hrest hd (hall d (List.mem_append_left cs hd))

/-- Nor is it the bare name with a number. -/
theorem qualified_ne_bare_numbered (before : String) (k : Nat) :
    before ++ Text.capitalizeFirst name ≠ name ++ Nat.repr k := by
  obtain ⟨c, cs, hcs⟩ := exists_toList_eq_cons hname
  have hdigits : ∀ d ∈ (Nat.repr k).toList, d.isDigit := fun d => isDigit_of_mem_repr
  have hne := toList_repr_ne_nil k
  intro heq
  have hl := congrArg String.toList heq
  simp only [String.toList_append, Text.toList_capitalizeFirst hcs, hcs] at hl
  have hl' : (before.toList ++ Text.upperChar c) ++ cs = [c] ++ (cs ++ (Nat.repr k).toList) := by
    simpa using hl
  have hrest := forall_mem_of_append_eq hne hdigits hl'
  -- the capital ends behind the first character of the numbered name, so with a digit
  obtain ⟨front, last, hlast⟩ := (List.eq_nil_or_concat (Text.upperChar c)).resolve_left
    (Text.upperChar_ne_nil c)
  rw [List.concat_eq_append] at hlast
  have hlen := congrArg List.length hl
  have hpos := List.length_pos_of_ne_nil hne
  rw [hlast] at hl hlen
  simp only [List.length_append, List.length_cons, List.length_nil] at hlen
  obtain ⟨first, shift, hshift⟩ : ∃ x xs, before.toList ++ front = x :: xs :=
    List.exists_cons_of_ne_nil (List.ne_nil_of_length_pos (by rw [List.length_append]; omega))
  have hl' : (before.toList ++ front) ++ last :: cs = c :: (cs ++ (Nat.repr k).toList) := by
    simpa using hl
  rw [hshift, List.cons_append] at hl'
  have htail := List.tail_eq_of_cons_eq hl'
  have hmem : last ∈ cs ++ (Nat.repr k).toList := by
    rw [← htail]
    simp
  have hdigit : last.isDigit := (List.mem_append.mp hmem).elim (hrest last) (hdigits last)
  exact not_isDigit_of_capital hname hcs hrest (by simp [hlast]) hdigit

end

/-- What a specifier offers: the bare name alone, or names that end with the name. -/
theorem mem_candidates {origin name a : String} (h : a ∈ candidates origin name) :
    (candidates origin name = [name] ∧ a = name) ∨ ∃ before, a = before ++ Text.capitalizeFirst name := by
  unfold candidates at h ⊢
  split at h
  · exact Or.inl ⟨rfl, List.mem_singleton.mp h⟩
  · obtain ⟨i, _, rfl⟩ := List.mem_map.mp h
    exact Or.inr ⟨_, rfl⟩

namespace Naming

def given (n : Naming) (c : Choice) : String :=
  if c.pick ∈ n.taken then c.pick ++ Nat.repr (freeNumber n.taken c.pick) else c.pick

theorem given_of_not_mem {n : Naming} {c : Choice} (h : c.pick ∉ n.taken) : n.given c = c.pick :=
  if_neg h

/-- A name other than the one held is that one with a number. -/
theorem given_of_mem {n : Naming} {c : Choice} (h : c.pick ∈ n.taken) :
    n.given c ≠ c.pick ∧ ∃ k, 2 ≤ k ∧ n.given c = c.pick ++ Nat.repr k := by
  have hgiven : n.given c = c.pick ++ Nat.repr (freeNumber n.taken c.pick) := if_pos h
  refine ⟨?_, _, (freeNumber_spec n.taken c.pick).1, hgiven⟩
  intro heq
  have hl := congrArg String.toList (hgiven.symm.trans heq)
  rw [String.toList_append] at hl
  exact toList_repr_ne_nil _ (List.append_right_eq_self.mp hl)

theorem taken_assign (name : String) (n : Naming) (c : Choice) :
    (n.assign name c).taken = n.taken ++ [n.given c] := by
  unfold assign given
  split <;> rfl

theorem aliases_assign (name : String) (n : Naming) (c : Choice) :
    (n.assign name c).aliases = n.aliases.insert (c.origin, name) (n.given c) := by
  unfold assign given
  split <;> rfl

theorem mem_warnings_assign {name : String} {n : Naming} {c : Choice} {w : Warning} :
    w ∈ (n.assign name c).warnings ↔
      w ∈ n.warnings ∨ c.pick ∈ n.taken ∧ w = .numbered name c.origin (n.given c) := by
  unfold assign given
  split
  · next h => simp [h]
  · next h => simp [h]

/-- The two namings say the same about an origin of a name. -/
structure Agrees (n n' : Naming) (origin name : String) : Prop where
  aliases : n'.aliases.find? (origin, name) = n.aliases.find? (origin, name)
  warnings : ∀ g, .numbered name origin g ∈ n'.warnings ↔ .numbered name origin g ∈ n.warnings

variable {n n' n'' : Naming} {origin name : String}

theorem Agrees.refl (n : Naming) (origin name : String) : n.Agrees n origin name :=
  ⟨rfl, fun _ => Iff.rfl⟩

theorem Agrees.trans (h : n.Agrees n' origin name) (h' : n'.Agrees n'' origin name) :
    n.Agrees n'' origin name :=
  ⟨h'.aliases.trans h.aliases, fun g => (h'.warnings g).trans (h.warnings g)⟩

theorem agrees_assign {other : String} {c : Choice} (h : (origin, name) ≠ (c.origin, other)) :
    n.Agrees (n.assign other c) origin name where
  aliases := by rw [aliases_assign, Table.find?_insert, if_neg h]
  warnings g := by
    rw [mem_warnings_assign, or_iff_left_iff_imp]
    rintro ⟨_, hw⟩
    cases hw
    exact absurd rfl h

/-- Naming other origins, or the origins of another name, says nothing new about an origin. -/
theorem agrees_foldl_assign {other : String} {cs : List Choice}
    (h : ∀ c ∈ cs, (origin, name) ≠ (c.origin, other)) :
    n.Agrees (cs.foldl (assign other) n) origin name := by
  induction cs generalizing n with
  | nil => exact .refl n origin name
  | cons c cs ih =>
    rw [List.forall_mem_cons] at h
    exact (agrees_assign h.1).trans (ih h.2)

/-- What is taken was taken before, or is held by an origin that has been named, perhaps with a
number. -/
theorem mem_taken_foldl_assign {cs : List Choice} {a : String}
    (h : a ∈ (cs.foldl (assign name) n).taken) :
    a ∈ n.taken ∨ ∃ c ∈ cs, a = c.pick ∨ ∃ k, a = c.pick ++ Nat.repr k := by
  induction cs generalizing n with
  | nil => exact Or.inl h
  | cons c cs ih =>
    rcases ih h with h | ⟨c', hc', h⟩
    · rw [taken_assign, List.mem_append, List.mem_singleton] at h
      rcases h with h | rfl
      · exact Or.inl h
      · refine Or.inr ⟨c, List.mem_cons_self, ?_⟩
        by_cases hc : c.pick ∈ n.taken
        · obtain ⟨_, k, _, hk⟩ := given_of_mem hc
          exact Or.inr ⟨k, hk⟩
        · exact Or.inl (given_of_not_mem hc)
    · exact Or.inr ⟨c', List.mem_cons_of_mem c hc', h⟩

end Naming

namespace Choice

theorem InRow.pick_mem {name : String} {c : Choice} (h : c.InRow name) :
    c.pick ∈ candidates c.origin name := h.subset List.mem_cons_self

/-- An origin that may still turn to a wider name holds one that ends with the name. -/
theorem InRow.qualified {name : String} {c : Choice} (h : c.InRow name) (hwider : c.wider ≠ []) :
    ∃ before, c.pick = before ++ Text.capitalizeFirst name := by
  rcases mem_candidates h.pick_mem with ⟨hone, _⟩ | hq
  · have hadd := h.depth_add
    rw [hone, List.length_singleton] at hadd
    exact absurd (List.length_eq_zero_iff.mp (by omega)) hwider
  · exact hq

/-- Once the search has come to rest, an origin with a wider name is given the one that it holds,
whatever the origins before it are given. -/
theorem pick_not_mem_taken {name : String} (hname : ∃ c ∈ name.toList, ¬ c.isDigit) {n : Naming}
    {front rest : List Choice} {c : Choice} (hrow : ∀ d ∈ front ++ c :: rest, d.InRow name)
    (hrest : step n.taken (front ++ c :: rest) = front ++ c :: rest) (hwider : c.wider ≠ []) :
    c.pick ∉ (front.foldl (Naming.assign name) n).taken := by
  have hc : c ∈ front ++ c :: rest := by simp
  have hclash : ¬ clashes n.taken (front ++ c :: rest) c :=
    fun h => hwider (wider_eq_nil_of_step_eq hrest hc h)
  simp only [clashes, Bool.or_eq_true, decide_eq_true_eq, not_or, Nat.not_lt, gt_iff_lt] at hclash
  obtain ⟨before, hpick⟩ := (hrow c hc).qualified hwider
  intro hmem
  rcases Naming.mem_taken_foldl_assign hmem with h | ⟨d, hd, h | ⟨k, h⟩⟩
  · exact hclash.1 h
  · -- two origins would hold one name
    have hone : 0 < (front.map (·.pick)).count d.pick :=
      List.count_pos_iff.mpr (List.mem_map_of_mem hd)
    have hcount := hclash.2
    rw [List.map_append, List.map_cons, List.count_append, List.count_cons_self, h] at hcount
    omega
  · rw [hpick] at h
    rcases mem_candidates (hrow d (List.mem_append_left _ hd)).pick_mem with ⟨_, hbare⟩ | ⟨before', hq⟩
    · rw [hbare] at h
      exact qualified_ne_bare_numbered hname before k h
    · rw [hq] at h
      exact qualified_ne_numbered hname before before' k h

end Choice

namespace Registry

def named (r : Registry) (names : List String) : Naming :=
  names.foldl r.qualifyName ⟨r.plainNames, .empty, []⟩

theorem agrees_foldl_qualifyName (r : Registry) {names : List String} {n : Naming}
    {origin name : String} (h : name ∉ names) :
    n.Agrees (names.foldl r.qualifyName n) origin name := by
  induction names generalizing n with
  | nil => exact .refl n origin name
  | cons other names ih =>
    rw [List.mem_cons, not_or] at h
    refine Naming.Agrees.trans (Naming.agrees_foldl_assign ?_) (ih h.2)
    intro c _ heq
    exact h.1 (Prod.ext_iff.mp heq).2

/-- Of an origin that is not yet named nothing is said. -/
theorem agrees_named (r : Registry) {names : List String} {origin name : String}
    (h : name ∉ names) : (⟨[], .empty, []⟩ : Naming).Agrees (r.named names) origin name :=
  ⟨(r.agrees_foldl_qualifyName h).aliases, (r.agrees_foldl_qualifyName h).warnings⟩

/-- What is said in the end about an origin of an overloaded name is what naming it says, which comes
after the names before it and the origins before it. -/
theorem agrees_qualify {r : Registry} (hnodup : r.overloadedNames.Nodup) {before after : List String}
    {name : String} (hnames : r.overloadedNames = before ++ name :: after) {front rest : List Choice}
    {c : Choice} (hcs : r.settled (r.named before).taken name = front ++ c :: rest) :
    let m := front.foldl (Naming.assign name) (r.named before)
    r.qualify.aliases.find? (c.origin, name) = some (m.given c) ∧
      ∀ g, .numbered name c.origin g ∈ r.qualify.warnings ↔
        c.pick ∈ m.taken ∧ g = m.given c := by
  intro m
  rw [hnames] at hnodup
  obtain ⟨_, hnodup', hbefore⟩ := List.nodup_append.mp hnodup
  have hafter := (List.nodup_cons.mp hnodup').1
  have hbefore : name ∉ before := fun h => hbefore name h name List.mem_cons_self rfl
  have horigins : (front.map (·.origin) ++ c.origin :: rest.map (·.origin)).Nodup := by
    have hset := r.origins_settled (r.named before).taken name
    rw [hcs, List.map_append, List.map_cons] at hset
    rw [hset]
    exact nodup_firstOccurrences _
  obtain ⟨_, hrest, hfront⟩ := List.nodup_append.mp horigins
  -- before this origin nothing is said about it, and nothing new after it
  have hsilent : (⟨[], .empty, []⟩ : Naming).Agrees m c.origin name := by
    refine (r.agrees_named hbefore).trans (Naming.agrees_foldl_assign fun d hd heq => ?_)
    exact hfront _ (List.mem_map_of_mem hd) _ List.mem_cons_self (Prod.ext_iff.mp heq).1.symm
  have hlater : (m.assign name c).Agrees r.qualify c.origin name := by
    have hwhole : r.qualify = after.foldl r.qualifyName (rest.foldl (Naming.assign name)
        (m.assign name c)) := by
      rw [qualify, hnames, List.foldl_append, List.foldl_cons]
      change after.foldl r.qualifyName
        ((r.settled (r.named before).taken name).foldl (Naming.assign name) (r.named before)) = _
      rw [hcs, List.foldl_append, List.foldl_cons]
    rw [hwhole]
    refine Naming.Agrees.trans (Naming.agrees_foldl_assign fun d hd heq => ?_)
      (r.agrees_foldl_qualifyName hafter)
    have horigin : c.origin = d.origin := (Prod.ext_iff.mp heq).1
    exact (List.nodup_cons.mp hrest).1 (horigin ▸ List.mem_map_of_mem hd)
  refine ⟨?_, fun g => ?_⟩
  · rw [hlater.aliases, Naming.aliases_assign, Table.find?_insert, if_pos rfl]
  · rw [hlater.warnings, Naming.mem_warnings_assign, hsilent.warnings]
    simp

theorem nodup_overloadedNames {r : Registry} (h : r.Sound) : r.overloadedNames.Nodup :=
  h.names_nodup.filter _

/-- After any registrations the choice of qualified names ends, with every look-up in range. When the
turn of an overloaded name comes, the search for it ends too, each origin at a name in its row; that name
is the one it is given, and no warning speaks of it, unless it gets a number from 2 on and the warning
says so. If the name does not consist of digits, only an origin at its last name gets a number. -/
theorem qualify_numbers_last (qs : List Request) :
    let r := empty.enterAll qs
    (∃ enough, ∀ fuel, enough ≤ fuel → Checked.qualify? fuel r = some r.qualify) ∧
    ∀ before name after, r.overloadedNames = before ++ name :: after →
      ∃ ss, (∃ enough, ∀ fuel, enough ≤ fuel →
          Checked.search? (r.named before).taken fuel (Checked.seats r name) = some ss) ∧
        ss.map (·.origin) = r.originsOf name ∧
        ∀ s ∈ ss, s.names = candidates s.origin name ∧
          ∃ held given, s.held? = some held ∧
            r.qualify.aliases.find? (s.origin, name) = some given ∧
            (∀ g, .numbered name s.origin g ∈ r.qualify.warnings ↔ given ≠ held ∧ g = given) ∧
            (given ≠ held → (∃ k, 2 ≤ k ∧ given = held ++ Nat.repr k) ∧
              ((∃ c ∈ name.toList, ¬ c.isDigit) → s.depth + 1 = s.names.length)) := by
  intro r
  have hs : r.Sound := sound_empty.enterAll qs
  refine ⟨r.foldlM_qualifyName? r.overloadedNames _, fun before name after hnames => ?_⟩
  have hrow := r.inRow_settled (r.named before).taken name
  have hstep := r.step_settled (r.named before).taken name
  refine ⟨(r.settled (r.named before).taken name).map (Choice.seat name),
    ⟨_, fun fuel hfuel => r.search?_seats _ name hfuel⟩, ?_, ?_⟩
  · rw [List.map_map]
    exact r.origins_settled _ name
  · intro s hmem
    obtain ⟨c, hc, rfl⟩ := List.mem_map.mp hmem
    obtain ⟨front, rest, hcs⟩ := List.append_of_mem hc
    obtain ⟨hgiven, hwarned⟩ := agrees_qualify (nodup_overloadedNames hs) hnames hcs
    have hcr := hrow c hc
    rw [hcs] at hrow hstep
    refine ⟨rfl, c.pick, _, hcr.held?, hgiven, fun g => ?_, fun hne => ?_⟩
    · refine (hwarned g).trans ?_
      refine and_congr_left fun _ => ⟨fun h => (Naming.given_of_mem h).1, fun h => ?_⟩
      by_contra hfree
      exact h (Naming.given_of_not_mem hfree)
    · have htaken := not_not.mp fun h => hne (Naming.given_of_not_mem h)
      refine ⟨(Naming.given_of_mem htaken).2, fun hname => hcr.depth_last_iff.mpr ?_⟩
      by_contra hwider
      exact Choice.pick_not_mem_taken hname hrow hstep hwider htaken

/-- A name from two origins, one of which finds both of its names taken by plain ones. -/
def crowded : List Request :=
  [⟨"aFoo", "aFoo", 2, "./z"⟩, ⟨"xAFoo", "xAFoo", 3, "./z"⟩, ⟨"foo", "foo", 0, "./x/a"⟩,
    ⟨"foo", "foo", 1, "./y/b"⟩]

/-- That origin stands at its second name of two when it gets a number; the other one gets none. -/
theorem crowded_numbered :
    (empty.enterAll crowded).overloadedNames = [] ++ "foo" :: [] ∧
      ∃ s : Checked.Seat, s.origin = "./x/a" ∧ s.names = ["aFoo", "xAFoo"] ∧
        .numbered "foo" "./x/a" "xAFoo2" ∈ (empty.enterAll crowded).qualify.warnings ∧
        (∃ c ∈ "foo".toList, ¬ c.isDigit) ∧ s.depth + 1 = s.names.length := by
  have hnames : (empty.enterAll crowded).overloadedNames = [] ++ "foo" :: [] := by decide +kernel
  have hwarned : .numbered "foo" "./x/a" "xAFoo2" ∈ (empty.enterAll crowded).qualify.warnings := by
    decide +kernel
  have hletter : ∃ c ∈ "foo".toList, ¬ c.isDigit := ⟨'f', by simp, by decide⟩
  obtain ⟨_, hall⟩ := qualify_numbers_last crowded
  obtain ⟨ss, _, horigins, hseats⟩ := hall [] "foo" [] hnames
  have hmem : "./x/a" ∈ ss.map (·.origin) := by
    rw [horigins]
    decide +kernel
  obtain ⟨s, hs, horigin⟩ := List.mem_map.mp hmem
  obtain ⟨hrow, held, given, _, _, hwarnings, hlast⟩ := hseats s hs
  rw [horigin] at hrow hwarnings
  obtain ⟨hne, _⟩ := (hwarnings "xAFoo2").mp hwarned
  exact ⟨hnames, s, horigin, by rw [hrow]; decide +kernel, hwarned, hletter, (hlast hne).2 hletter⟩

end Registry

end Barrel

end BarrelAlias
