import BarrelAlias.Alias.Directory
import BarrelAlias.Proofs.Specifier
import Mathlib.Algebra.GroupWithZero.Nat

/-!
What an aliased specifier stands for. A declared pattern binds a specifier that equals it, or that has a
text in the place of its star; with that text in the place of the star a target names a path. The lookup
cuts texts and knows no parts of paths: an alias stands for the path that it was found for exactly if
pattern and target both end in `/*` and the path goes on below the directory, or if neither has a star
and the path is the directory.
-/

namespace BarrelAlias

namespace Text

theorem afterHead?_eq_some {head s x : String} : afterHead? head s = some x ↔ s = head ++ x := by
  unfold afterHead?
  rw [Option.map_eq_some_iff]
  constructor
  · rintro ⟨cs, hcs, rfl⟩
    rw [List.isPrefixOf?_eq_some_iff_append_eq] at hcs
    rw [← String.toList_inj, String.toList_append, String.toList_ofList, hcs]
  · rintro rfl
    refine ⟨x.toList, ?_, String.ofList_toList⟩
    rw [List.isPrefixOf?_eq_some_iff_append_eq, String.toList_append]

theorem length_replaceChar (a b : Char) (s : String) : (replaceChar a b s).length = s.length := by
  simp [replaceChar, String.length_toList]

theorem splitAt_ne_nil (s : String) : splitAt '/' s ≠ [] := by
  simp [splitAt, List.splitOn_ne_nil]

theorem not_mem_of_mem_splitAt {s piece : String} (h : piece ∈ splitAt '/' s) :
    '/' ∉ piece.toList ∧ ∀ c ∈ piece.toList, c ∈ s.toList := by
  obtain ⟨cs, hcs, rfl⟩ := List.mem_map.mp h
  rw [String.toList_ofList]
  exact mem_splitOn_slash hcs

end Text

namespace Path

def spelled (ns : List String) : Nat := (ns.map fun n => n.length + 1).sum

theorem spelled_append (ns ms : List String) : spelled (ns ++ ms) = spelled ns + spelled ms := by
  simp [spelled]

theorem spelled_dropLast_le (ns : List String) : spelled ns.dropLast ≤ spelled ns := by
  rcases List.eq_nil_or_concat ns with rfl | ⟨front, n, rfl⟩
  · simp
  · simp [spelled_append]

theorem length_intercalate {ns : List String} (h : ns ≠ []) :
    ("/".intercalate ns).length + 1 = spelled ns := by
  induction ns with
  | nil => exact absurd rfl h
  | cons n ns ih =>
    cases ns with
    | nil => simp [spelled]
    | cons m ns =>
      have hih := ih (List.cons_ne_nil m ns)
      have hslash : "/".length = 1 := rfl
      rw [String.intercalate_cons_cons, String.length_append, String.length_append, hslash]
      simp only [spelled, List.map_cons, List.sum_cons] at hih ⊢
      omega

theorem length_slashed (ns : List String) :
    (slashed ⟨true, ns⟩).length = max 1 (spelled ns) := by
  rw [slashed, Text.length_replaceChar, text, if_pos rfl, String.length_append]
  have hslash : "/".length = 1 := rfl
  by_cases h : ns = []
  · subst h
    rfl
  · have hlen := length_intercalate h
    simp only [hslash]
    omega

/-- Parts add at most what they take in a spelling, and less unless all of them are names. -/
theorem spelled_foldl_move_le (loc : Location) (ps : List String) :
    spelled ((stepsOf false ps).foldl Location.move loc) ≤ spelled loc + spelled ps ∧
      (spelled ((stepsOf false ps).foldl Location.move loc) = spelled loc + spelled ps →
        ∀ p ∈ ps, IsName p) := by
  induction ps generalizing loc with
  | nil => simp [stepsOf, spelled]
  | cons p ps ih =>
    have hcons : spelled (p :: ps) = p.length + 1 + spelled ps := by simp [spelled]
    by_cases hc : counts false p
    · rw [stepsOf, if_pos hc, List.foldl_cons]
      by_cases hup : p = ".."
      · have hstep : loc.move (stepOf p) = loc.dropLast := by simp [hup, stepOf, Location.move]
        rw [hstep, hcons]
        -- two dots take three characters with their slash, and going up makes a place no longer
        have hle := (ih loc.dropLast).1
        have hdrop := spelled_dropLast_le loc
        exact ⟨by omega, fun h => by omega⟩
      · have hname : IsName p := by
          simp only [counts, Bool.or_false, Bool.and_eq_true, decide_eq_true_eq] at hc
          exact ⟨hc.1, hc.2, hup⟩
        have hstep : loc.move (stepOf p) = loc ++ [p] := by
          simp [stepOf, hname.2.1, hup, Location.move]
        have hone : spelled (loc ++ [p]) = spelled loc + (p.length + 1) := by
          simp [spelled]
        obtain ⟨hle, heq⟩ := ih (loc ++ [p])
        rw [hone] at hle heq
        rw [hstep, hcons]
        refine ⟨by omega, ?_⟩
        intro h
        exact List.forall_mem_cons.mpr ⟨hname, heq (by omega)⟩
    · -- a part that is no step takes at least its slash
      rw [stepsOf, if_neg hc, hcons]
      have hle := (ih loc).1
      exact ⟨by omega, fun h => by omega⟩

theorem stepsOf_append_of_ne_nil (leading : Bool) {ps : List String} (h : ps ≠ [])
    (qs : List String) : stepsOf leading (ps ++ qs) = stepsOf leading ps ++ stepsOf false qs := by
  cases ps with
  | nil => exact absurd rfl h
  | cons p ps =>
    rw [List.cons_append, stepsOf, stepsOf, stepsOf_append]
    split <;> rfl

theorem steps_append (rooted : Bool) {ps : List String} (h : ps ≠ []) (qs : List String) :
    steps ⟨rooted, ps ++ qs⟩ = steps ⟨rooted, ps⟩ ++ stepsOf false qs := by
  rw [steps, steps, stepsOf_append_of_ne_nil false h, stepsOf_append_of_ne_nil true h]
  cases rooted <;> rfl

theorem join_append (base : Path) {ps : List String} (h : ps ≠ []) (qs : List String) :
    ∃ front, base.join ⟨false, ps⟩ = ⟨base.rooted, front ++ ps⟩ ∧
      base.join ⟨false, ps ++ qs⟩ = ⟨base.rooted, front ++ ps ++ qs⟩ := by
  by_cases hb : base.parts = []
  · exact ⟨[], by simp [join, hb], by simp [join, hb]⟩
  · refine ⟨if base.parts.getLast? = some "" then base.parts.dropLast else base.parts, ?_, ?_⟩
    · simp [join, hb, h]
    · simp [join, hb, h]

theorem ofText_of_slash {s : String} {cs : List Char} (h : s.toList = '/' :: cs) (hcs : cs ≠ []) :
    ofText s = ⟨true, (cs.splitOn '/').map String.ofList⟩ := by
  unfold ofText
  split
  · next h' => simp [h] at h'
  · next h' => exact absurd (by simpa [h] using h') hcs
  · next h' =>
    rw [h] at h'
    cases h'
    rfl
  · next h' => exact absurd h (h' cs)

theorem ofText_of_ne_slash {s : String} {c : Char} {cs : List Char} (h : s.toList = c :: cs)
    (hc : c ≠ '/') : ofText s = ⟨false, Text.splitAt '/' s⟩ := by
  unfold ofText
  split
  · next h' => simp [h] at h'
  · next h' => simp [h, hc] at h'
  · next h' => simp [h, hc] at h'
  · rfl

/-- A text after a slash adds its pieces to a path. The root is spelled with a slash itself, so that an
empty piece comes first. -/
theorem ofText_append {t : String} (ht : t ≠ "") (w : String) :
    (∃ rooted ps, ps ≠ [] ∧ ofText t = ⟨rooted, ps⟩ ∧
        ofText (t ++ "/" ++ w) = ⟨rooted, ps ++ Text.splitAt '/' w⟩) ∨
      (ofText t = ⟨true, []⟩ ∧ ofText (t ++ "/" ++ w) = ⟨true, "" :: Text.splitAt '/' w⟩) := by
  obtain ⟨c, cs, hcs⟩ := List.exists_cons_of_ne_nil (mt String.toList_eq_nil_iff.mp ht)
  have hjoined : (t ++ "/" ++ w).toList = c :: (cs ++ '/' :: w.toList) := by simp [hcs]
  by_cases hc : c = '/'
  · subst hc
    have hlong := ofText_of_slash hjoined (by simp)
    rw [List.splitOn_append_cons_self, List.map_append] at hlong
    by_cases hnil : cs = []
    · subst hnil
      exact Or.inr ⟨by simp [ofText, hcs], hlong⟩
    · exact Or.inl ⟨true, _, by simp [List.splitOn_ne_nil], ofText_of_slash hcs hnil, hlong⟩
  · refine Or.inl ⟨false, _, Text.splitAt_ne_nil t, ofText_of_ne_slash hcs hc, ?_⟩
    rw [ofText_of_ne_slash hjoined hc, Text.splitAt_append]

/-- A text after a slash in a joined path adds the steps of its pieces. -/
theorem steps_join_append (base : Path) {t : String} (ht : t ≠ "") (w : String) :
    (base.join (ofText (t ++ "/" ++ w))).steps =
      (base.join (ofText t)).steps ++ stepsOf false (Text.splitAt '/' w) := by
  rcases ofText_append ht w with ⟨rooted, ps, hps, h, h'⟩ | ⟨h, h'⟩
  · rw [h, h']
    cases rooted with
    | true =>
      rw [join, if_pos rfl, join, if_pos rfl, steps_append true hps]
    | false =>
      obtain ⟨front, hj, hj'⟩ := join_append base hps (Text.splitAt '/' w)
      rw [hj, hj', steps_append base.rooted (List.append_ne_nil_of_right_ne_nil front hps)]
  · rw [h, h']
    rfl

theorem root_not_mem_cleanStep {s : Step} {taken : List Step} (hs : s ≠ .root)
    (ht : Step.root ∉ taken) : Step.root ∉ cleanStep taken s := by
  cases s with
  | root => exact absurd rfl hs
  | here => exact ht
  | name n => simpa [cleanStep] using ht
  | up =>
    cases taken with
    | nil => simp [cleanStep]
    | cons last rest => cases last <;> simp_all [cleanStep]

theorem root_not_mem_foldl_cleanStep {ss taken : List Step} (hs : Step.root ∉ ss)
    (ht : Step.root ∉ taken) : Step.root ∉ ss.foldl cleanStep taken := by
  induction ss generalizing taken with
  | nil => exact ht
  | cons s ss ih =>
    rw [List.mem_cons, not_or] at hs
    exact ih hs.2 (root_not_mem_cleanStep (Ne.symm hs.1) ht)

theorem root_mem_of_ofSteps {ss : List Step} (h : (ofSteps ss).rooted) : Step.root ∈ ss := by
  unfold ofSteps at h
  split at h
  · exact List.mem_cons_self
  · simp at h

theorem rooted_of_clean {p : Path} (h : p.clean.rooted) : p.rooted := by
  by_contra hp
  have hsteps : p.steps = stepsOf true p.parts := by rw [steps, if_neg hp]
  have hroot : Step.root ∉ (p.steps.foldl cleanStep []).reverse := by
    rw [List.mem_reverse, hsteps]
    exact root_not_mem_foldl_cleanStep (root_not_mem_stepsOf true p.parts) (by simp)
  unfold clean at h
  split at h
  · simp at h
  · exact hroot (root_mem_of_ofSteps h)

theorem rooted_join_append (base : Path) {t : String} (ht : t ≠ "") (w : String) :
    (base.join (ofText (t ++ "/" ++ w))).rooted ↔ (base.join (ofText t)).rooted := by
  rw [rooted_iff_head, rooted_iff_head, steps_join_append base ht w]
  cases hsteps : (base.join (ofText t)).steps with
  | cons s ss => simp
  | nil =>
    have hroot : (stepsOf false (Text.splitAt '/' w)).head? ≠ some .root := fun h =>
      root_not_mem_stepsOf false (Text.splitAt '/' w) (List.mem_of_head? h)
    simpa using hroot

/-- Where a text after a slash in a joined path leads, from where the path before it leads. -/
theorem clean_join_append {base : Path} {t : String} (ht : t ≠ "") (w : String)
    (h : (base.join (ofText t)).rooted) : ∃ folder : Location,
      (base.join (ofText t)).clean = ⟨true, folder⟩ ∧
      (base.join (ofText (t ++ "/" ++ w))).clean =
        ⟨true, (stepsOf false (Text.splitAt '/' w)).foldl Location.move folder⟩ := by
  refine ⟨Location.ofSteps (base.join (ofText t)).steps, clean_of_rooted h, ?_⟩
  rw [clean_of_rooted ((rooted_join_append base ht w).mpr h), steps_join_append base ht w,
    Location.ofSteps, List.foldl_append]
  rfl

theorem mem_parts_join {base rel : Path} {n : String} (h : n ∈ (base.join rel).parts) :
    n = "" ∨ n ∈ base.parts ∨ n ∈ rel.parts := by
  unfold join at h
  split at h
  · exact Or.inr (Or.inr h)
  · split at h
    · exact Or.inr (Or.inr h)
    · rcases List.mem_append.mp h with h | h
      · refine Or.inr (Or.inl ?_)
        split at h
        · exact List.dropLast_subset _ h
        · exact h
      · split at h
        · exact Or.inl (List.mem_singleton.mp h)
        · exact Or.inr (Or.inr h)

/-- An absolute path without detours is spelled by names. -/
theorem exists_names_clean {p : Path} (hp : p.rooted) (hs : ∀ n ∈ p.parts, '/' ∉ n.toList) :
    ∃ ns, p.clean = ⟨true, ns⟩ ∧ ∀ n ∈ ns, IsName n ∧ '/' ∉ n.toList := by
  have hgood : ∀ n, Step.name n ∈ p.steps → IsName n ∧ '/' ∉ n.toList := by
    intro n hn
    rw [steps_of_rooted hp] at hn
    obtain ⟨hmem, hname⟩ := isName_of_mem_stepsOf (List.mem_of_ne_of_mem (by simp) hn)
    exact ⟨hname, hs n hmem⟩
  obtain ⟨kept, ns, hkept, hmoved, hns⟩ :=
    Location.foldl_move_kept hgood (List.prefix_refl []) (List.forall_mem_nil _)
  rw [List.prefix_nil.mp hkept, List.nil_append] at hmoved
  exact ⟨ns, by rw [clean_of_rooted hp, Location.ofSteps]; exact congrArg _ hmoved, hns⟩

theorem slashed_append {fs ns : List String} (hfs : fs ≠ []) (hns : ns ≠ [])
    (h : ∀ n ∈ ns, '\\' ∉ n.toList) :
    slashed ⟨true, fs ++ ns⟩ = slashed ⟨true, fs⟩ ++ "/" ++ "/".intercalate ns := by
  have hslash : Text.replaceChar '\\' '/' "/" = "/" := by decide
  have hrest : Text.replaceChar '\\' '/' ("/".intercalate ns) = "/".intercalate ns :=
    Text.replaceChar_of_not_mem (Text.not_mem_intercalate (by decide) h)
  simp only [slashed, text, ↓reduceIte, String.intercalate_append_of_ne_nil hfs hns,
    Text.replaceChar_append, hslash, hrest, String.append_assoc]

end Path

namespace Alias

open BarrelAlias.Path (IsName length_intercalate length_slashed ofText slashed spelled
  spelled_foldl_move_le stepsOf stepsOf_names)

/-- A pattern binds a specifier: one without a star binds itself, and any other binds a text in the place
of its first star. -/
inductive Binds : String → String → Option String → Prop
  | exact {pattern : String} (h : '*' ∉ pattern.toList) : Binds pattern pattern none
  | star {head tail : String} (h : '*' ∉ head.toList) (w : String) :
      Binds (head ++ "*" ++ tail) (head ++ w ++ tail) (some w)

def fillStar (w : List Char) : List Char → List Char
  | [] => []
  | c :: cs => if c = '*' then w ++ cs else c :: fillStar w cs

def filled (target : String) : Option String → String
  | none => target
  | some w => String.ofList (fillStar w.toList target.toList)

def baseOf (configDir : Path) (m : Config.PathMapping) : Path :=
  (configDir.join (Path.ofText m.baseUrl)).clean

/-- The pattern binds the specifier, and with what it has bound the target names the path. -/
def Denotes (base : Path) (pattern target specifier : String) (path : Path) : Prop :=
  ∃ w, Binds pattern specifier w ∧ (base.join (Path.ofText (filled target w))).clean = path

def folderPath (base : Path) (target : String) : Path :=
  (base.join (Path.ofText (withoutWildcard target))).clean

def Wild (s : String) : Prop := s = withoutWildcard s ++ "/*"

instance (s : String) : Decidable (Wild s) :=
  inferInstanceAs (Decidable (s = withoutWildcard s ++ "/*"))

/-- The text has no star but that of a `/*` at its end. -/
def Regular (s : String) : Prop := '*' ∉ (withoutWildcard s).toList

instance (s : String) : Decidable (Regular s) :=
  inferInstanceAs (Decidable ('*' ∉ (withoutWildcard s).toList))

/-- The path goes on below the directory, which is not the root, by names without a backslash. -/
def Below (folder path : Path) : Prop :=
  ∃ ns, ns ≠ [] ∧ folder.parts ≠ [] ∧ path = ⟨folder.rooted, folder.parts ++ ns⟩ ∧
    ∀ n ∈ ns, '\\' ∉ n.toList

theorem withoutWildcard_of_not_wild {s : String} (h : ¬ Wild s) : withoutWildcard s = s := by
  unfold Wild withoutWildcard at *
  cases hs : Text.beforeTail? "/*" s with
  | none => rfl
  | some x =>
    rw [hs] at h
    exact absurd (Text.beforeTail?_eq_some.mp hs).symm h

theorem Regular.star_not_mem {s : String} (hr : Regular s) (h : ¬ Wild s) : '*' ∉ s.toList := by
  rw [Regular, withoutWildcard_of_not_wild h] at hr
  exact hr

theorem binds_of_star_not_mem {pattern s : String} {w : Option String}
    (h : '*' ∉ pattern.toList) : Binds pattern s w ↔ s = pattern ∧ w = none := by
  constructor
  · intro hb
    cases hb with
    | exact => exact ⟨rfl, rfl⟩
    | star => simp at h
  · rintro ⟨rfl, rfl⟩
    exact .exact h

theorem binds_wild_iff {x s : String} {w : Option String} (h : '*' ∉ x.toList) :
    Binds (x ++ "/*") s w ↔ ∃ v, w = some v ∧ s = x ++ "/" ++ v := by
  have hx : '*' ∉ (x ++ "/").toList := by simp [h]
  have hstar : x ++ "/*" = x ++ "/" ++ "*" ++ "" := by
    rw [← String.toList_inj]
    simp
  constructor
  · intro hb
    rw [hstar] at hb
    generalize hp : x ++ "/" ++ "*" ++ "" = p at hb
    cases hb with
    | exact hno =>
      rw [← hp] at hno
      simp at hno
    | @star head tail hhead v =>
      have hcut : (x ++ "/").toList ++ '*' :: [] = head.toList ++ '*' :: tail.toList := by
        simpa using congrArg String.toList hp
      obtain ⟨hhead', _, htail⟩ := (List.append_cons_inj_of_notMem hx (by simp)).mp hcut
      refine ⟨v, rfl, ?_⟩
      rw [String.toList_inj.mp hhead', String.toList_eq_nil_iff.mp htail.symm, String.append_empty]
  · rintro ⟨v, rfl, rfl⟩
    rw [hstar, ← @String.append_empty (x ++ "/" ++ v)]
    exact .star hx v

theorem fillStar_of_not_mem {w cs : List Char} (h : '*' ∉ cs) : fillStar w cs = cs := by
  induction cs with
  | nil => rfl
  | cons c cs ih =>
    rw [List.mem_cons, not_or] at h
    rw [fillStar, if_neg (Ne.symm h.1), ih h.2]

theorem fillStar_append {w as bs : List Char} (h : '*' ∉ as) :
    fillStar w (as ++ '*' :: bs) = as ++ (w ++ bs) := by
  induction as with
  | nil => simp [fillStar]
  | cons a as ih =>
    rw [List.mem_cons, not_or] at h
    rw [List.cons_append, fillStar, if_neg (Ne.symm h.1), ih h.2, List.cons_append]

theorem filled_of_star_not_mem {target : String} (h : '*' ∉ target.toList) (w : Option String) :
    filled target w = target := by
  cases w with
  | none => rfl
  | some w => rw [filled, fillStar_of_not_mem h, String.ofList_toList]

theorem filled_wild {x : String} (h : '*' ∉ x.toList) (v : String) :
    filled (x ++ "/*") (some v) = x ++ "/" ++ v := by
  have hx : '*' ∉ (x ++ "/").toList := by simp [h]
  have hstar : (x ++ "/*").toList = (x ++ "/").toList ++ '*' :: [] := by simp
  rw [filled, hstar, fillStar_append hx, ← String.toList_inj]
  simp

theorem eq_empty_of_append_eq {s rest : String} (h : s ++ rest = s) : rest = "" := by
  rw [← @String.append_empty s, String.append_assoc, String.append_right_inj, String.empty_append] at h
  exact h

/-- A path with the length of the directory, a slash and the text is by names below the directory. -/
theorem below_of_length {folder : Location} {v : String}
    (h : max 1 (spelled ((stepsOf false (Text.splitAt '/' v)).foldl Location.move folder)) =
      max 1 (spelled folder) + (1 + v.length)) :
    folder ≠ [] ∧
      (stepsOf false (Text.splitAt '/' v)).foldl Location.move folder =
        folder ++ Text.splitAt '/' v := by
  obtain ⟨hle, hnames⟩ := spelled_foldl_move_le folder (Text.splitAt '/' v)
  have hlen : v.length + 1 = spelled (Text.splitAt '/' v) := by
    rw [← length_intercalate (Text.splitAt_ne_nil v), Text.intercalate_splitAt]
  have hpos : 0 < spelled folder := by omega
  have hfolder : folder ≠ [] := by
    rintro rfl
    simp [spelled] at hpos
  refine ⟨hfolder, ?_⟩
  rw [stepsOf_names (hnames (by omega)), Location.foldl_move_names]

section Denotes

variable {base : Path} {pattern target rest : String} {ns : List String}

theorem exists_folder {t v : String} (ht : t ≠ "")
    (h : (base.join (ofText (t ++ "/" ++ v))).clean = ⟨true, ns⟩) :
    ∃ folder : Location, (base.join (ofText t)).clean = ⟨true, folder⟩ ∧
      ns = (stepsOf false (Text.splitAt '/' v)).foldl Location.move folder := by
  have hrooted : (base.join (ofText (t ++ "/" ++ v))).rooted := Path.rooted_of_clean (by rw [h])
  obtain ⟨folder, hfolder, hmoved⟩ :=
    Path.clean_join_append ht v ((Path.rooted_join_append base ht v).mp hrooted)
  rw [h] at hmoved
  exact ⟨folder, hfolder, congrArg Path.parts hmoved⟩

/-- A pattern without a star stands for what its target names. -/
theorem denotes_iff_of_exact (hp : '*' ∉ pattern.toList) (ht : ¬ Wild target)
    (hcut : slashed ⟨true, ns⟩ = (folderPath base target).slashed ++ rest) :
    Denotes base pattern target (pattern ++ rest) ⟨true, ns⟩ ↔ ⟨true, ns⟩ = folderPath base target := by
  have hfolder : folderPath base target = (base.join (ofText (filled target none))).clean := by
    rw [folderPath, withoutWildcard_of_not_wild ht, filled]
  constructor
  · rintro ⟨w, hb, hw⟩
    obtain ⟨_, rfl⟩ := (binds_of_star_not_mem hp).mp hb
    rw [hfolder, hw]
  · intro h
    rw [← h] at hcut
    have hrest := eq_empty_of_append_eq hcut.symm
    rw [hrest, String.append_empty]
    exact ⟨none, .exact hp, by rw [← hfolder, h]⟩

/-- A pattern without a star does not stand for anything in the directory of a target with a star. -/
theorem not_denotes_of_exact_wild {t : String} (hp : '*' ∉ pattern.toList) (ht : t ≠ "")
    (hcut : slashed ⟨true, ns⟩ = (base.join (ofText t)).clean.slashed ++ rest) :
    ¬ Denotes base pattern (t ++ "/*") (pattern ++ rest) ⟨true, ns⟩ := by
  rintro ⟨w, hb, hw⟩
  obtain ⟨hrest, rfl⟩ := (binds_of_star_not_mem hp).mp hb
  have hstar : filled (t ++ "/*") none = t ++ "/" ++ "*" := by
    rw [filled, String.append_assoc]
    rfl
  rw [hstar] at hw
  -- read as it is, the target goes on from its directory by a star
  obtain ⟨folder, hfolder, rfl⟩ := exists_folder ht hw
  have hone : (stepsOf false (Text.splitAt '/' "*")).foldl Location.move folder = folder ++ ["*"] := rfl
  rw [eq_empty_of_append_eq hrest, hfolder, hone, String.append_empty] at hcut
  have hlen := congrArg String.length hcut
  rw [length_slashed, length_slashed] at hlen
  have hmore : spelled (folder ++ ["*"]) = spelled folder + 2 := by
    rw [Path.spelled_append]
    rfl
  omega

/-- A pattern with a star does not stand for anything in the directory of a target without one. -/
theorem not_denotes_of_wild_exact {x : String} (hx : '*' ∉ x.toList) (ht : '*' ∉ target.toList)
    (hcut : slashed ⟨true, ns⟩ = (base.join (ofText target)).clean.slashed ++ rest) :
    ¬ Denotes base (x ++ "/*") target (x ++ rest) ⟨true, ns⟩ := by
  rintro ⟨w, hb, hw⟩
  obtain ⟨v, rfl, hs⟩ := (binds_wild_iff hx).mp hb
  rw [filled_of_star_not_mem ht] at hw
  rw [hw] at hcut
  have hrest := eq_empty_of_append_eq hcut.symm
  rw [hrest, String.append_assoc, String.append_right_inj] at hs
  have hlen := congrArg String.toList hs
  simp at hlen

/-- What a pattern and a target with stars stand for is below the directory of the target. -/
theorem denotes_iff_of_wild {x t : String} (hx : '*' ∉ x.toList) (ht : '*' ∉ t.toList)
    (hempty : t ≠ "") (hnames : ∀ n ∈ ns, IsName n ∧ '/' ∉ n.toList)
    (hcut : slashed ⟨true, ns⟩ = (base.join (ofText t)).clean.slashed ++ rest) :
    Denotes base (x ++ "/*") (t ++ "/*") (x ++ rest) ⟨true, ns⟩ ↔
      Below (base.join (ofText t)).clean ⟨true, ns⟩ := by
  constructor
  · rintro ⟨w, hb, hw⟩
    obtain ⟨v, rfl, hs⟩ := (binds_wild_iff hx).mp hb
    rw [String.append_assoc, String.append_right_inj] at hs
    rw [filled_wild ht] at hw
    obtain ⟨folder, hfolder, hns⟩ := exists_folder hempty hw
    rw [hfolder, hs] at hcut
    -- the path spells out all of `v`, so no piece of `v` is lost on the way to it
    have hlen := congrArg String.length hcut
    rw [String.length_append, String.length_append, length_slashed, length_slashed, hns] at hlen
    obtain ⟨hne, hmoved⟩ := below_of_length hlen
    refine ⟨Text.splitAt '/' v, Text.splitAt_ne_nil v, by rw [hfolder]; exact hne, ?_, ?_⟩
    · rw [hfolder, hns, hmoved]
    · intro n hn hmem
      have hv := (Text.not_mem_of_mem_splitAt hn).2 _ hmem
      have hno : '\\' ∉ (slashed ⟨true, ns⟩).toList := Text.not_mem_replaceChar (by decide) _
      rw [hcut] at hno
      exact hno (by simp [hv])
  · rintro ⟨ms, hms, hne, hpath, hback⟩
    have hclean : (base.join (ofText t)).clean.rooted := (congrArg Path.rooted hpath).symm
    obtain ⟨folder, hfolder, hmoved⟩ :=
      Path.clean_join_append hempty ("/".intercalate ms) (Path.rooted_of_clean hclean)
    rw [hfolder] at hne hpath hcut
    cases hpath
    have hslash : ∀ n ∈ ms, '/' ∉ n.toList := fun n hn => (hnames n (by simp [hn])).2
    have hisname : ∀ n ∈ ms, IsName n := fun n hn => (hnames n (by simp [hn])).1
    rw [Path.slashed_append hne hms hback, String.append_assoc, String.append_right_inj] at hcut
    refine ⟨some ("/".intercalate ms), ?_, ?_⟩
    · exact (binds_wild_iff hx).mpr ⟨_, rfl, by rw [← hcut, String.append_assoc]⟩
    · rw [filled_wild ht, hmoved, Text.splitAt_intercalate hms hslash, stepsOf_names hisname,
        Location.foldl_move_names]

/-- What the alias of a cut path stands for. -/
theorem denotes_iff (hp : Regular pattern) (ht : Regular target) (hroot : target ≠ "/*")
    (hnames : ∀ n ∈ ns, IsName n ∧ '/' ∉ n.toList)
    (hcut : slashed ⟨true, ns⟩ = (folderPath base target).slashed ++ rest) :
    Denotes base pattern target (withoutWildcard pattern ++ rest) ⟨true, ns⟩ ↔
      (Wild pattern ∧ Wild target ∧ Below (folderPath base target) ⟨true, ns⟩) ∨
        (¬ Wild pattern ∧ ¬ Wild target ∧ ⟨true, ns⟩ = folderPath base target) := by
  have hempty : Wild target → withoutWildcard target ≠ "" := by
    intro hw he
    rw [Wild, he] at hw
    exact hroot hw
  by_cases hwp : Wild pattern
  · by_cases hwt : Wild target
    · have hiff := denotes_iff_of_wild hp ht (hempty hwt) hnames hcut
      rw [← hwp, ← hwt] at hiff
      simpa [hwp, hwt, folderPath] using hiff
    · have hnot := @not_denotes_of_wild_exact base target rest ns _ hp (ht.star_not_mem hwt) (by
        rw [hcut, folderPath, withoutWildcard_of_not_wild hwt])
      rw [← hwp] at hnot
      simpa [hwp, hwt] using hnot
  · have hpattern := withoutWildcard_of_not_wild hwp
    by_cases hwt : Wild target
    · have hnot := not_denotes_of_exact_wild (hp.star_not_mem hwp) (hempty hwt) hcut
      rw [← hwt] at hnot
      simpa [hwp, hwt, hpattern] using hnot
    · have hiff := denotes_iff_of_exact (hp.star_not_mem hwp) hwt hcut
      simpa [hwp, hwt, hpattern] using hiff

end Denotes

theorem mem_assign {folder short : String} {e : Entry} {es : List Entry}
    (h : e ∈ assign folder short es) : e = ⟨folder, short⟩ ∨ e ∈ es := by
  induction es with
  | nil => exact Or.inl (List.mem_singleton.mp h)
  | cons e' es ih =>
    rw [assign] at h
    split at h
    · rcases List.mem_cons.mp h with h | h
      · exact Or.inl h
      · exact Or.inr (List.mem_cons_of_mem e' h)
    · rcases List.mem_cons.mp h with rfl | h
      · exact Or.inr List.mem_cons_self
      · exact (ih h).imp_right (List.mem_cons_of_mem e')

theorem mem_foldl_assign {ds : List (String × String)} {es : List Entry} {e : Entry}
    (h : e ∈ ds.foldl (fun es d => assign d.1 d.2 es) es) : (e.folder, e.short) ∈ ds ∨ e ∈ es := by
  induction ds generalizing es with
  | nil => exact Or.inr h
  | cons d ds ih =>
    rcases ih h with h | h
    · exact Or.inl (List.mem_cons_of_mem d h)
    · rcases mem_assign h with rfl | h
      · exact Or.inl List.mem_cons_self
      · exact Or.inr h

/-- Every entry comes from a declared pattern and one of its targets. -/
theorem exists_declared {configDir : Path} {m : Config.PathMapping} {e : Entry}
    (h : e ∈ (Directory.build configDir m).entries) :
    ∃ pattern targets target, (pattern, targets) ∈ m.paths ∧ target ∈ targets ∧
      e.folder = (folderPath (baseOf configDir m) target).slashed ∧
      e.short = withoutWildcard pattern := by
  rcases mem_foldl_assign h with h | h
  · obtain ⟨⟨pattern, targets⟩, hmem, h⟩ := List.mem_flatMap.mp h
    obtain ⟨target, htarget, h⟩ := List.mem_map.mp h
    obtain ⟨hfolder, hshort⟩ := Prod.mk.inj h
    exact ⟨pattern, targets, target, hmem, htarget, hfolder.symm, hshort.symm⟩
  · simp at h

theorem exists_entry {d : Directory} {path s : String} (h : d.aliasOf? path = some s) :
    ∃ e ∈ d.entries, ∃ rest, path = e.folder ++ rest ∧ s = e.short ++ rest := by
  obtain ⟨e, he, h⟩ := List.exists_of_findSome?_eq_some h
  obtain ⟨rest, hrest, rfl⟩ := Option.map_eq_some_iff.mp h
  exact ⟨e, he, rest, Text.afterHead?_eq_some.mp hrest, rfl⟩

/-- The path that a relative specifier names in a file in a directory. -/
def namedIn (dir rel : String) : Path := ((ofText dir).join (ofText rel)).clean

theorem exists_names_namedIn {dir : String} (h : (ofText dir).rooted) (rel : String) :
    ∃ ns, namedIn dir rel = ⟨true, ns⟩ ∧ ∀ n ∈ ns, IsName n ∧ '/' ∉ n.toList := by
  refine Path.exists_names_clean (Path.rooted_join h) ?_
  intro n hn
  rcases Path.mem_parts_join hn with rfl | hn | hn
  · simp
  · exact (Path.mem_parts_ofText hn).1
  · exact (Path.mem_parts_ofText hn).1

/-- An alias is the path that it was found for with a pattern in the place of the directory of one of its
targets. It stands for that path if both have a star and the path goes on below the directory, or if
neither has one and the path is the directory, and for nothing else. -/
theorem alias_denotes_iff (configDir dir rel s : String) (m : Config.PathMapping)
    (hdir : (ofText dir).rooted)
    (h : (Directory.build (ofText configDir) m).aliasFor? (ofText dir) rel = some s) :
    ∃ pattern targets target rest, (pattern, targets) ∈ m.paths ∧ target ∈ targets ∧
      (namedIn dir rel).slashed =
        (folderPath (baseOf (ofText configDir) m) target).slashed ++ rest ∧
      s = withoutWildcard pattern ++ rest ∧
      (Regular pattern → Regular target → target ≠ "/*" →
        (Denotes (baseOf (ofText configDir) m) pattern target s (namedIn dir rel) ↔
          (Wild pattern ∧ Wild target ∧
            Below (folderPath (baseOf (ofText configDir) m) target) (namedIn dir rel)) ∨
          (¬ Wild pattern ∧ ¬ Wild target ∧
            namedIn dir rel = folderPath (baseOf (ofText configDir) m) target))) := by
  obtain ⟨ns, hpath, hnames⟩ := exists_names_namedIn hdir rel
  obtain ⟨e, he, rest, hcut, hs⟩ := exists_entry h
  obtain ⟨pattern, targets, target, hmem, htarget, hfolder, hshort⟩ := exists_declared he
  rw [hfolder] at hcut
  rw [hshort] at hs
  have hcut' : (namedIn dir rel).slashed =
      (folderPath (baseOf (ofText configDir) m) target).slashed ++ rest := hcut
  refine ⟨pattern, targets, target, rest, hmem, htarget, hcut', hs, ?_⟩
  intro hp ht hroot
  rw [hpath] at hcut' ⊢
  rw [hs]
  exact denotes_iff hp ht hroot hnames hcut'

def appMapping : Config.PathMapping := ⟨".", [("app/*", ["src/app/*"])]⟩

/-- Below the directory the alias stands for the path. -/
theorem below_app_denoted :
    (ofText "/p/src/app/widgets").rooted ∧
      (Directory.build (ofText "/p") appMapping).aliasFor? (ofText "/p/src/app/widgets")
        "../utils/format" = some "app/utils/format" ∧
      Denotes (baseOf (ofText "/p") appMapping) "app/*" "src/app/*" "app/utils/format"
        (namedIn "/p/src/app/widgets" "../utils/format") := by
  have hdir : (ofText "/p/src/app/widgets").rooted := by decide +kernel
  have hfound : (Directory.build (ofText "/p") appMapping).aliasFor? (ofText "/p/src/app/widgets")
      "../utils/format" = some "app/utils/format" := by decide +kernel
  refine ⟨hdir, hfound, ?_⟩
  obtain ⟨pattern, targets, target, rest, hmem, htarget, _, _, hiff⟩ :=
    alias_denotes_iff "/p" "/p/src/app/widgets" "../utils/format" _ appMapping hdir hfound
  cases List.mem_singleton.mp hmem
  cases List.mem_singleton.mp htarget
  have hp : Regular "app/*" ∧ Wild "app/*" := by decide +kernel
  have ht : Regular "src/app/*" ∧ Wild "src/app/*" := by decide +kernel
  have hbelow : Below (folderPath (baseOf (ofText "/p") appMapping) "src/app/*")
      (namedIn "/p/src/app/widgets" "../utils/format") := ⟨["utils", "format"], by decide +kernel⟩
  exact (hiff hp.1 ht.1 (by decide)).mpr (Or.inl ⟨hp.2, ht.2, hbelow⟩)

/-- A path beside the directory whose name begins with that of the directory takes the alias too, and no
declared pattern makes anything of it. -/
theorem beside_app_not_denoted :
    (ofText "/p/src").rooted ∧
      (Directory.build (ofText "/p") appMapping).aliasFor? (ofText "/p/src") "./application/x" =
        some "application/x" ∧
      ¬ ∃ pattern targets target, (pattern, targets) ∈ appMapping.paths ∧ target ∈ targets ∧
        Denotes (baseOf (ofText "/p") appMapping) pattern target "application/x"
          (namedIn "/p/src" "./application/x") := by
  refine ⟨by decide +kernel, by decide +kernel, ?_⟩
  rintro ⟨pattern, targets, target, hmem, _, w, hb, _⟩
  cases List.mem_singleton.mp hmem
  have hx : '*' ∉ "app".toList := by decide
  obtain ⟨v, _, hs⟩ := (binds_wild_iff hx).mp hb
  have hchars := congrArg (fun s => s.toList.take 4) hs
  simp at hchars

end Alias

end BarrelAlias
