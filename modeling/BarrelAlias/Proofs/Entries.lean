import BarrelAlias.Config.ProjectFiles
import BarrelAlias.Proofs.Spelling
import Mathlib.Data.List.Forall2
import Mathlib.Data.List.Induction

/-!
Entries without wildcards in the lists of a configuration. Such an entry stands for two patterns,
its own text and all that lies below it. Main statement: they name the files at or below the place
that the entry leads to, capital letters aside, if the entry spells that place by names alone;
otherwise they name nothing.
-/

namespace BarrelAlias

/-! ### Patterns that begin with a literal text -/

namespace Glob

def Alike (o : Strictness) (as bs : List Char) : Prop :=
  List.Forall₂ (fun a b => o.same b a = true) as bs

def IsLiteral (c : Char) : Prop := c ≠ '*' ∧ c ≠ '?' ∧ c ≠ '['

theorem accepts_chars_append (o : Strictness) (cs : List Char) (ps : List Piece)
    (txt : List Char) :
    accepts o (cs.map .char ++ ps) txt ↔
      ∃ as bs, txt = as ++ bs ∧ Alike o cs as ∧ accepts o ps bs := by
  induction cs generalizing txt with
  | nil =>
    constructor
    · exact fun h => ⟨[], txt, rfl, .nil, h⟩
    · rintro ⟨as, bs, rfl, h, hps⟩
      cases h
      exact hps
  | cons c cs ih =>
    cases txt with
    | nil =>
      constructor
      · intro h
        simp [accepts] at h
      · rintro ⟨as, bs, htxt, h, _⟩
        cases h
        simp at htxt
    | cons d txt =>
      have step : accepts o ((c :: cs).map .char ++ ps) (d :: txt) =
          (o.same d c && accepts o (cs.map .char ++ ps) txt) := by
        simp [accepts, Piece.takes]
      rw [step, Bool.and_eq_true, ih]
      constructor
      · rintro ⟨hd, as, bs, rfl, h, hps⟩
        exact ⟨d :: as, bs, rfl, .cons hd h, hps⟩
      · rintro ⟨as, bs, htxt, h, hps⟩
        cases h with
        | @cons _ a _ as hd h =>
          obtain ⟨rfl, rfl⟩ := List.cons.inj htxt
          exact ⟨hd, as, bs, rfl, h, hps⟩

/-- All that lies below a place: what is left of an entry without wildcards after its text. -/
def belowPieces : List Piece := [.char '/', .anyFolders, .anySequence]

theorem nil_mem_afterSlashes (cs : List Char) : [] ∈ afterSlashes cs := by
  induction cs with
  | nil => simp [afterSlashes]
  | cons c cs ih =>
    rw [afterSlashes]
    split <;> simp [ih]

/-- Two stars before a single one stand for any text. -/
theorem accepts_everything (o : Strictness) (cs : List Char) :
    accepts o [.anyFolders, .anySequence] cs = true := by
  rw [accepts, List.any_eq_true]
  exact ⟨[], by simp [afterFolders, nil_mem_afterSlashes], by simp [accepts, afterSequence]⟩

theorem accepts_belowPieces (o : Strictness) (txt : List Char) :
    accepts o belowPieces txt ↔ ∃ c cs, txt = c :: cs ∧ o.same c '/' := by
  cases txt with
  | nil => simp [belowPieces, accepts]
  | cons c cs =>
    have step : accepts o belowPieces (c :: cs) =
        (o.same c '/' && accepts o [.anyFolders, .anySequence] cs) := by
      simp [belowPieces, accepts, Piece.takes]
    simp [step, accepts_everything]

/-- Literal characters are read as themselves; what follows them is read on its own. -/
theorem readPieces_literal {cs tail : List Char} {pieces : List Piece}
    (literal : ∀ c ∈ cs, IsLiteral c)
    (read : ∀ fuel before, tail.length < fuel → readPieces fuel before tail = .ok pieces)
    (fuel : Nat) (before : Option Char) (h : (cs ++ tail).length < fuel) :
    readPieces fuel before (cs ++ tail) = .ok (cs.map .char ++ pieces) := by
  induction cs generalizing fuel before with
  | nil => exact read fuel before h
  | cons c cs ih =>
    obtain ⟨fuel, rfl⟩ := Nat.exists_eq_add_of_lt h
    obtain ⟨star, question, bracket⟩ := literal c (by simp)
    have rest := ih (fun d hd => literal d (by simp [hd])) ((c :: cs ++ tail).length + fuel)
      (some c) (by simp; omega)
    rw [List.cons_append, readPieces]
    all_goals simp_all

theorem parse_literal {s : String} (literal : ∀ c ∈ s.toList, IsLiteral c) :
    Pattern.parse s = .ok ⟨s.toList.map .char⟩ := by
  have tail : ∀ fuel before, ([] : List Char).length < fuel → readPieces fuel before [] = .ok [] := by
    intro fuel before _
    cases fuel <;> rfl
  have read := readPieces_literal literal tail (s.toList.length + 1) none (by simp)
  simp only [List.append_nil] at read
  rw [Pattern.parse, read]
  rfl

theorem parse_literal_below {s : String} (literal : ∀ c ∈ s.toList, IsLiteral c) :
    Pattern.parse (s ++ "/**/*") = .ok ⟨s.toList.map .char ++ belowPieces⟩ := by
  have tail : ∀ fuel before, "/**/*".toList.length < fuel →
      readPieces fuel before "/**/*".toList = .ok belowPieces := by
    intro fuel before h
    obtain ⟨fuel, rfl⟩ := Nat.exists_eq_add_of_lt h
    have : "/**/*".toList.length + fuel + 1 = fuel + 6 := by simp; omega
    rw [this]
    simp [readPieces]
    rfl
  have read := readPieces_literal literal tail ((s ++ "/**/*").toList.length + 1) none (by simp)
  rw [Pattern.parse, String.toList_append] at *
  rw [read]
  rfl

/-- A small letter for a capital one comes behind all capitals; other characters stay. -/
theorem toLower_cases (c : Char) :
    c.toLower = c ∨ 65 ≤ c.toNat ∧ c.toLower.toNat = c.toNat + 32 := by
  unfold Char.toLower
  split
  · next upper =>
    have least : 65 ≤ c.toNat := by simpa [UInt32.le_iff_toNat_le] using upper.1
    have most : c.toNat ≤ 90 := by simpa [UInt32.le_iff_toNat_le] using upper.2
    refine .inr ⟨least, ?_⟩
    show (c.val + 32).toNat = c.val.toNat + 32
    rw [UInt32.toNat_add]
    exact Nat.mod_eq_of_lt (by simp; omega)
  · exact .inl rfl

namespace Strictness

variable {o : Strictness} {c d : Char}

theorem same_self (o : Strictness) (c : Char) : o.same c c = true := by
  simp [same]

theorem same_comm (o : Strictness) (c d : Char) : o.same c d = o.same d c := by
  unfold same
  by_cases h : o.caseSensitive || c.toNat ≥ 128 || d.toNat ≥ 128
  · have h' : (o.caseSensitive || d.toNat ≥ 128 || c.toNat ≥ 128) = true := by
      rw [← h]
      grind
    rw [if_pos h, if_pos h']
    exact decide_eq_decide.2 eq_comm
  · have h' : ¬ (o.caseSensitive || d.toNat ≥ 128 || c.toNat ≥ 128) = true := by grind
    rw [if_neg h, if_neg h']
    exact decide_eq_decide.2 eq_comm

/-- Of the characters before the letters, each is like itself only. -/
theorem eq_of_same (hd : d.toNat < 65) (h : o.same c d) : c = d := by
  unfold same at h
  split at h
  · exact of_decide_eq_true h
  · have lower := of_decide_eq_true h
    rcases toLower_cases d with hd' | ⟨hd', _⟩
    · rcases toLower_cases c with hc | ⟨_, hc⟩
      · rw [← hc, lower, hd']
      · rw [lower, hd'] at hc
        omega
    · omega

theorem eq_iff_of_same {e : Char} (he : e.toNat < 65) (h : o.same c d) : c = e ↔ d = e := by
  constructor
  · rintro rfl
    exact eq_of_same he (by rw [same_comm]; exact h)
  · rintro rfl
    exact eq_of_same he h

end Strictness

theorem Alike.modifyHead {o : Strictness} {c d : Char} (h : o.same d c) {ps qs : List (List Char)}
    (hs : List.Forall₂ (Alike o) ps qs) :
    List.Forall₂ (Alike o) (ps.modifyHead (c :: ·)) (qs.modifyHead (d :: ·)) := by
  cases hs with
  | nil => exact .nil
  | cons first rest => exact .cons (.cons h first) rest

/-- Texts that are alike have slashes at the same places. -/
theorem Alike.splitOn {o : Strictness} {as bs : List Char} (h : Alike o as bs) :
    List.Forall₂ (Alike o) (as.splitOn '/') (bs.splitOn '/') := by
  induction h with
  | nil => exact .cons .nil .nil
  | @cons c d as bs hcd _ ih =>
    rw [List.splitOn_cons_eq_if_modifyHead, List.splitOn_cons_eq_if_modifyHead]
    have slash : c = '/' ↔ d = '/' := (Strictness.eq_iff_of_same (by decide) hcd).symm
    by_cases hc : c = '/'
    · simpa [hc, slash.1 hc] using List.Forall₂.cons (R := Alike o) .nil ih
    · simpa [hc, mt slash.2 hc] using Alike.modifyHead hcd ih

theorem Alike.append {o : Strictness} {as bs cs ds : List Char} (h : Alike o as bs)
    (h' : Alike o cs ds) : Alike o (as ++ cs) (bs ++ ds) :=
  List.rel_append h h'

theorem Alike.intercalate {o : Strictness} {ps qs : List (List Char)}
    (h : List.Forall₂ (Alike o) ps qs) : Alike o (['/'].intercalate ps) (['/'].intercalate qs) := by
  induction h with
  | nil => exact .nil
  | @cons p q ps qs hpq hs ih =>
    cases hs with
    | nil => simpa using hpq
    | cons h hs =>
      rw [List.intercalate_cons_cons, List.intercalate_cons_cons]
      exact (hpq.append (.cons (Strictness.same_self o '/') .nil)).append ih

/-- A literal text and the pattern for all below it name the texts that begin with it and go on with
a slash, if at all. -/
theorem accepts_text_or_below (o : Strictness) (cs txt : List Char) :
    (accepts o (cs.map .char) txt ∨ accepts o (cs.map .char ++ belowPieces) txt) ↔
      ∃ as bs, txt = as ++ bs ∧ Alike o cs as ∧ ∀ c ∈ bs.head?, c = '/' := by
  have text := accepts_chars_append o cs [] txt
  rw [List.append_nil] at text
  rw [text, accepts_chars_append]
  constructor
  · rintro (⟨as, bs, rfl, h, hbs⟩ | ⟨as, bs, rfl, h, hbs⟩)
    · exact ⟨as, bs, rfl, h, by simp_all [accepts]⟩
    · obtain ⟨c, ds, rfl, hc⟩ := (accepts_belowPieces o bs).1 hbs
      exact ⟨as, _, rfl, h, by simpa using Strictness.eq_of_same (by decide) hc⟩
  · rintro ⟨as, bs, rfl, h, slash⟩
    cases bs with
    | nil => exact .inl ⟨as, [], rfl, h, rfl⟩
    | cons c ds =>
      obtain rfl : c = '/' := slash c rfl
      exact .inr ⟨as, _, rfl, h,
        (accepts_belowPieces o _).2 ⟨'/', ds, rfl, Strictness.same_self o '/'⟩⟩

theorem intercalate_append {α : Type} {sep : List α} {xs ys : List (List α)} (hx : xs ≠ [])
    (hy : ys ≠ []) :
    sep.intercalate (xs ++ ys) = sep.intercalate xs ++ (sep ++ sep.intercalate ys) := by
  induction xs with
  | nil => exact absurd rfl hx
  | cons x xs ih =>
    by_cases hxs : xs = []
    · subst hxs
      simp [List.intercalate_cons_of_ne_nil hy]
    · rw [List.cons_append, List.intercalate_cons_of_ne_nil (by simp [hxs]), ih hxs,
        List.intercalate_cons_of_ne_nil hxs]
      simp

/-- A way begins with a text, up to a slash or its end, if it begins with the parts of the text. -/
theorem exists_front_iff {o : Strictness} {cs : List Char} {way : List (List Char)}
    (hway : ∀ n ∈ way, '/' ∉ n) (hne : way ≠ []) :
    (∃ as bs, ['/'].intercalate way = as ++ bs ∧ Alike o cs as ∧ ∀ c ∈ bs.head?, c = '/') ↔
      ∃ front back, way = front ++ back ∧ List.Forall₂ (Alike o) (cs.splitOn '/') front := by
  constructor
  · rintro ⟨as, bs, htxt, h, slash⟩
    have split := List.splitOn_intercalate '/' hway hne
    rw [htxt] at split
    cases bs with
    | nil => exact ⟨as.splitOn '/', [], by simpa using split.symm, h.splitOn⟩
    | cons c ds =>
      obtain rfl : c = '/' := slash c rfl
      rw [List.splitOn_append_cons_self] at split
      exact ⟨as.splitOn '/', _, split.symm, h.splitOn⟩
  · rintro ⟨front, back, rfl, h⟩
    have alike := Alike.intercalate h
    rw [List.intercalate_splitOn] at alike
    have nonempty : front ≠ [] := by
      rintro rfl
      exact List.splitOn_ne_nil '/' cs (List.forall₂_nil_right_iff.1 h)
    by_cases hb : back = []
    · exact ⟨_, [], by simp [hb], alike, by simp⟩
    · refine ⟨_, '/' :: ['/'].intercalate back, ?_, alike, by simp⟩
      rw [intercalate_append nonempty hb]
      rfl

end Glob

namespace Config

open Glob (Alike IsLiteral belowPieces)
open BarrelAlias.Path (IsName)

def entryText (entry : String) : String :=
  String.ofList (withoutSlashes (withoutHere entry.toList))

def SameNames (ns ms : List String) : Prop :=
  List.Forall₂ (fun n m => Alike projectStrictness n.toList m.toList) ns ms

/-- The way begins with these names, capital letters aside. -/
def BeginsAlike (ns way : List String) : Prop :=
  ∃ front back, way = front ++ back ∧ SameNames ns front

theorem mem_of_mem_withoutHere {cs : List Char} {c : Char} (h : c ∈ withoutHere cs) : c ∈ cs := by
  fun_induction withoutHere cs with
  | case1 cs ih => simp [ih h]
  | case2 => exact h

theorem mem_of_mem_withoutSlashes {cs : List Char} {c : Char} (h : c ∈ withoutSlashes cs) :
    c ∈ cs := by
  have := (List.dropWhile_sublist _).subset (List.mem_reverse.1 h)
  exact List.mem_reverse.1 this

theorem isLiteral_entryText {entry : String} (h : ∀ c ∈ entry.toList, IsLiteral c) :
    ∀ c ∈ (entryText entry).toList, IsLiteral c := by
  intro c hc
  rw [entryText, String.toList_ofList] at hc
  exact h c (mem_of_mem_withoutHere (mem_of_mem_withoutSlashes hc))

theorem compileAll_entry {entry : String} (h : ∀ c ∈ entry.toList, IsLiteral c) :
    compileAll [entry] = .ok [⟨(entryText entry).toList.map .char⟩,
      ⟨(entryText entry).toList.map .char ++ belowPieces⟩] := by
  have literal := isLiteral_entryText h
  have plain : ((withoutSlashes (withoutHere entry.toList)).any
      fun c => c = '*' || c = '?' || c = '[') = false := by
    rw [List.any_eq_false]
    intro c hc
    obtain ⟨star, question, bracket⟩ := literal c (by simpa [entryText] using hc)
    simp [star, question, bracket]
  have entries : variants entry = [entryText entry, entryText entry ++ "/**/*"] := by
    simp [variants, plain, entryText]
  simp only [compileAll, List.flatMap_cons, List.flatMap_nil, List.append_nil, entries,
    List.mapM_cons, List.mapM_nil, compile, Glob.parse_literal literal,
    Glob.parse_literal_below literal]
  rfl

/-- The two patterns of an entry name a way if it begins with the parts of the entry's text. -/
theorem anyMatches_parts (entry : String) {way : List String}
    (hway : ∀ n ∈ way, '/' ∉ n.toList) (hne : way ≠ []) :
    anyMatches [⟨(entryText entry).toList.map .char⟩,
        ⟨(entryText entry).toList.map .char ++ belowPieces⟩] way ↔
      BeginsAlike (Text.splitAt '/' (entryText entry)) way := by
  have slash : "/".toList = ['/'] := rfl
  simp only [anyMatches, List.any_cons, List.any_nil, Bool.or_false, Bool.or_eq_true,
    Glob.Pattern.matches, String.toList_intercalate, slash]
  rw [Glob.accepts_text_or_below, Glob.exists_front_iff (by simpa using hway) (by simpa using hne)]
  constructor
  · rintro ⟨front, back, h, alike⟩
    obtain ⟨front, back, rfl, rfl, rfl⟩ := List.map_eq_append_iff.1 h
    exact ⟨front, back, rfl, by simpa [SameNames, Text.splitAt] using alike⟩
  · rintro ⟨front, back, rfl, alike⟩
    exact ⟨front.map String.toList, back.map String.toList, by simp,
      by simpa [SameNames, Text.splitAt] using alike⟩

/-! ### What an entry leads to -/

theorem eq_of_sameName {n m : String} (h : Alike projectStrictness n.toList m.toList)
    (hn : ∀ c ∈ n.toList, c.toNat < 65) : n = m := by
  have chars : ∀ {as bs : List Char}, Alike projectStrictness as bs →
      (∀ c ∈ as, c.toNat < 65) → as = bs := by
    intro as bs h ha
    induction h with
    | nil => rfl
    | cons hc _ ih =>
      rw [Glob.Strictness.eq_of_same (ha _ (by simp)) hc, ih fun c hc => ha c (by simp [hc])]
  exact String.toList_inj.1 (chars h hn)

/-- What is like a name is a name. -/
theorem isName_of_sameName {n m : String} (h : Alike projectStrictness n.toList m.toList)
    (hm : IsName m) : IsName n := by
  have alike : ∀ p : String, (∀ c ∈ p.toList, c.toNat < 65) → m ≠ p → n ≠ p := by
    rintro p hp hne rfl
    exact hne (eq_of_sameName h hp).symm
  exact ⟨alike "" (by simp) hm.1, alike "." (by simp) hm.2.1, alike ".." (by simp) hm.2.2⟩

theorem isName_of_sameNames {ns ms : List String} (h : SameNames ns ms)
    (hms : ∀ m ∈ ms, IsName m) : ∀ n ∈ ns, IsName n := by
  induction h with
  | nil => simp
  | cons first _ ih =>
    rw [List.forall_mem_cons] at hms ⊢
    exact ⟨isName_of_sameName first hms.1, ih hms.2⟩

/-- The steps of a text that is read as a relative path, but for a dot at its start. -/
def stepsIn (cs : List Char) : List Step := Path.stepsOf false ((cs.splitOn '/').map String.ofList)

theorem stepsIn_append (as bs : List Char) :
    stepsIn (as ++ '/' :: bs) = stepsIn as ++ stepsIn bs := by
  rw [stepsIn, List.splitOn_append_cons_self, List.map_append, Path.stepsOf_append]
  rfl

theorem stepsIn_nil : stepsIn [] = [] := by
  simp [stepsIn, Path.stepsOf, Path.counts]

theorem stepsIn_withoutHere (cs : List Char) : stepsIn (withoutHere cs) = stepsIn cs := by
  fun_induction withoutHere cs with
  | case1 cs ih =>
    have here : stepsIn ['.'] = [] := by decide
    rw [ih, show '.' :: '/' :: cs = ['.'] ++ '/' :: cs from rfl, stepsIn_append, here,
      List.nil_append]
  | case2 => rfl

theorem stepsIn_withoutSlashes (cs : List Char) : stepsIn (withoutSlashes cs) = stepsIn cs := by
  induction cs using List.reverseRecOn with
  | nil => rfl
  | append_singleton cs c ih =>
    by_cases hc : c = '/'
    · subst hc
      have : withoutSlashes (cs ++ ['/']) = withoutSlashes cs := by simp [withoutSlashes]
      rw [this, ih, stepsIn_append, stepsIn_nil, List.append_nil]
    · have : withoutSlashes (cs ++ [c]) = cs ++ [c] := by simp [withoutSlashes, hc]
      rw [this]

/-- The entry's text takes the steps of the entry. -/
theorem stepsOf_entryText {entry : String} (relative : (Path.ofText entry).rooted = false) :
    Path.stepsOf false (Text.splitAt '/' (entryText entry)) =
      Path.stepsOf false (Path.ofText entry).parts := by
  have trimmed : Path.stepsOf false (Text.splitAt '/' (entryText entry)) =
      stepsIn entry.toList := by
    rw [← stepsIn_withoutHere, ← stepsIn_withoutSlashes]
    simp [stepsIn, Text.splitAt, entryText]
  rw [trimmed]
  unfold Path.ofText at relative ⊢
  split at relative
  · next h => simp [h, stepsIn_nil, Path.stepsOf]
  · simp at relative
  · simp at relative
  · rfl

end Config

namespace Path

/-- The steps that are left of a path when going up has undone what it can, the last first. -/
def taken (p : Path) : List Step := p.steps.foldl cleanStep []

theorem clean_eq (p : Path) :
    p.clean = match p.taken.reverse with
      | [] => ⟨false, ["."]⟩
      | ss => ofSteps ss := rfl

/-- A dot at the start of a relative path leads nowhere else. -/
theorem foldl_cleanStep_leading (leading : Bool) (ps : List String) (ss : List Step) :
    (stepsOf leading ps).foldl cleanStep ss = (stepsOf false ps).foldl cleanStep ss := by
  cases ps with
  | nil => rfl
  | cons p ps =>
    cases leading with
    | false => rfl
    | true =>
      by_cases hp : p = "."
      · subst hp
        simp [stepsOf, counts, stepOf, cleanStep]
      · simp [stepsOf, counts, hp]

theorem taken_eq (p : Path) :
    p.taken = (stepsOf false p.parts).foldl cleanStep (if p.rooted then [.root] else []) := by
  unfold taken steps
  split
  · rfl
  · exact foldl_cleanStep_leading true p.parts []

theorem stepsOf_parts_join (base rel : Path) (hr : rel.rooted = false) :
    stepsOf false (base.join rel).parts = stepsOf false base.parts ++ stepsOf false rel.parts := by
  have rooted : (Path.join { base with rooted := true } rel).steps = _ := steps_join rfl hr
  have parts : (Path.join { base with rooted := true } rel).parts = (base.join rel).parts := by
    simp only [join, hr, Bool.false_eq_true, if_false]
    split <;> rfl
  rw [steps_of_rooted (rooted_join rfl), steps_of_rooted rfl, parts] at rooted
  simpa using rooted

theorem taken_join (base rel : Path) (hr : rel.rooted = false) :
    (base.join rel).taken = (stepsOf false rel.parts).foldl cleanStep base.taken := by
  have rooted : (base.join rel).rooted = base.rooted := by
    simp only [join, hr, Bool.false_eq_true, if_false]
    split <;> rfl
  rw [taken_eq, taken_eq base, rooted, stepsOf_parts_join base rel hr, List.foldl_append]

/-- Names below a folder are all kept. -/
theorem taken_join_names (base rel : Path) (hr : rel.rooted = false) {ns : List String}
    (hns : stepsOf false rel.parts = ns.map .name) :
    (base.join rel).taken = (ns.map .name).reverse ++ base.taken := by
  rw [taken_join base rel hr, hns]
  generalize base.taken = ss
  clear hns
  induction ns generalizing ss with
  | nil => rfl
  | cons n ns ih => simp [ih, cleanStep]

/-- Two ways of names below a folder that lead to one place are the same. -/
theorem names_of_clean_eq {base rel rel' : Path} {ns ms : List String}
    (hr : rel.rooted = false) (hr' : rel'.rooted = false)
    (hns : stepsOf false rel.parts = ns.map .name) (hms : stepsOf false rel'.parts = ms.map .name)
    (names : ∀ n ∈ ns, IsName n) (hne : ns ≠ [])
    (h : (base.join rel).clean = (base.join rel').clean) : ns = ms := by
  have left := taken_join_names base rel hr hns
  have right := taken_join_names base rel' hr' hms
  rw [clean_eq, clean_eq, left, right, List.reverse_append, List.reverse_append,
    List.reverse_reverse, List.reverse_reverse] at h
  have texts : ∀ ns : List String, (ns.map Step.name).map Step.text = ns := fun ns => by
    simp [Function.comp_def, Step.text]
  cases hb : base.taken.reverse with
  | nil =>
    obtain ⟨n, ns, rfl⟩ := List.exists_cons_of_ne_nil hne
    cases ms with
    | nil =>
      have : n = "." := by simpa [hb, ofSteps, Step.text] using congrArg (·.parts.head?) h
      exact absurd this (names n (by simp)).2.1
    | cons m ms => simpa [hb, ofSteps, Step.text, texts] using h
  | cons s ss => cases s <;> simpa [hb, ofSteps, texts] using h

end Path

namespace Config

open Glob (Alike IsLiteral)
open BarrelAlias.Path (IsName)

/-- An entry whose text is made of names leads where they do. -/
theorem splitAt_entryText {folder : Path} {entry : String} {target : List String}
    (relative : (Path.ofText entry).rooted = false) (names : ∀ n ∈ target, IsName n)
    (leads : (folder.join (Path.ofText entry)).clean = (folder.join ⟨false, target⟩).clean)
    (parts : ∀ part ∈ Text.splitAt '/' (entryText entry), IsName part) :
    Text.splitAt '/' (entryText entry) = target := by
  refine Path.names_of_clean_eq relative (rfl : (⟨false, target⟩ : Path).rooted = false) ?_
    (Path.stepsOf_names names) parts (by simp [Text.splitAt, List.splitOn_ne_nil]) leads
  rw [← stepsOf_entryText relative, Path.stepsOf_names parts]

/-- An entry without wildcards compiles. Its patterns name the files at or below the place that the
entry leads to, `target` below the folder, capital letters aside, if the entry spells that place by
names; otherwise they name no file. No entry for the folder itself names any. -/
theorem entry_names_iff {folder : Path} {entry : String} {target way : List String}
    (relative : (Path.ofText entry).rooted = false) (literal : ∀ c ∈ entry.toList, IsLiteral c)
    (names : ∀ n ∈ target, IsName n)
    (leads : (folder.join (Path.ofText entry)).clean = (folder.join ⟨false, target⟩).clean)
    (hway : ∀ n ∈ way, IsName n ∧ '/' ∉ n.toList) (hne : way ≠ []) :
    ∃ ps, compileAll [entry] = .ok ps ∧
      (anyMatches ps way ↔
        (∀ part ∈ Text.splitAt '/' (entryText entry), IsName part) ∧ BeginsAlike target way) ∧
      (target = [] → anyMatches ps way = false) := by
  have same := splitAt_entryText relative names leads
  have matched := anyMatches_parts entry (fun n hn => (hway n hn).2) hne
  have spelled : BeginsAlike (Text.splitAt '/' (entryText entry)) way →
      ∀ part ∈ Text.splitAt '/' (entryText entry), IsName part := by
    rintro ⟨front, back, rfl, alike⟩
    exact isName_of_sameNames alike fun n hn => (hway n (by simp [hn])).1
  refine ⟨_, compileAll_entry literal, ?_, ?_⟩
  · -- a way is made of names, so the parts that it begins with are names too
    rw [matched]
    constructor
    · intro begins
      exact ⟨spelled begins, same (spelled begins) ▸ begins⟩
    · rintro ⟨parts, begins⟩
      rw [same parts]
      exact begins
  · rintro rfl
    rw [Bool.eq_false_iff, ne_eq, matched]
    intro begins
    have empty := same (spelled begins)
    simp [Text.splitAt, List.splitOn_ne_nil] at empty

/-- The folder `src` is named with a dot before and a slash after it, the folder of the
configuration is not. -/
theorem src_entry_names :
    (Path.ofText "./src/").rooted = false ∧ (∀ c ∈ "./src/".toList, IsLiteral c) ∧
      (Path.join ⟨true, ["p"]⟩ (Path.ofText "./src/")).clean =
        (Path.join ⟨true, ["p"]⟩ ⟨false, ["src"]⟩).clean ∧
      (Path.join ⟨true, ["p"]⟩ (Path.ofText "./")).clean =
        (Path.join ⟨true, ["p"]⟩ ⟨false, []⟩).clean ∧
      (∃ ps, compileAll ["./src/"] = .ok ps ∧ anyMatches ps ["src", "a.ts"] = true) ∧
      ∃ ps, compileAll ["./"] = .ok ps ∧ anyMatches ps ["src", "a.ts"] = false := by
  have relative : (Path.ofText "./src/").rooted = false := by decide
  have literal : ∀ c ∈ "./src/".toList, IsLiteral c := by simp [IsLiteral]
  have leads : (Path.join ⟨true, ["p"]⟩ (Path.ofText "./src/")).clean =
      (Path.join ⟨true, ["p"]⟩ ⟨false, ["src"]⟩).clean := by decide
  have own : (Path.join ⟨true, ["p"]⟩ (Path.ofText "./")).clean =
      (Path.join ⟨true, ["p"]⟩ ⟨false, []⟩).clean := by decide
  have hway : ∀ n ∈ ["src", "a.ts"], IsName n ∧ '/' ∉ n.toList := by simp [IsName]
  have begins : BeginsAlike ["src"] ["src", "a.ts"] :=
    ⟨["src"], ["a.ts"], rfl, by simp [SameNames, Alike, Glob.Strictness.same_self]⟩
  obtain ⟨ps, compiled, named, _⟩ :=
    entry_names_iff relative literal (by simp [IsName]) leads hway (by simp)
  have relative' : (Path.ofText "./").rooted = false := by decide
  obtain ⟨qs, compiled', _, none⟩ :=
    entry_names_iff relative' (by simp [IsLiteral]) (by simp) own hway (by simp)
  have parts : Text.splitAt '/' (entryText "./src/") = ["src"] := by decide
  have spelled : ∀ part ∈ Text.splitAt '/' (entryText "./src/"), IsName part := by
    simp [parts, IsName]
  exact ⟨relative, literal, leads, own, ⟨ps, compiled, named.2 ⟨spelled, begins⟩⟩, qs, compiled',
    none rfl⟩

end Config

end BarrelAlias
