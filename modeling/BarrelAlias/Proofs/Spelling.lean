import BarrelAlias.Extension
import BarrelAlias.Proofs.Path

/-!
How paths are spelled. A path whose names hold no slash reads back from its spelling, also with an
extension added; the way between two places goes up to where they part and down from there.
-/

namespace BarrelAlias

namespace Text

theorem beforeTail?_eq_some {tail s x : String} : beforeTail? tail s = some x ↔ x ++ tail = s := by
  unfold beforeTail?
  rw [Option.map_eq_some_iff]
  constructor
  · rintro ⟨cs, hcs, rfl⟩
    rw [List.isSuffixOf?_eq_some_iff_append_eq] at hcs
    rw [← String.toList_inj, String.toList_append, String.toList_ofList, hcs]
  · intro h
    refine ⟨x.toList, ?_, String.ofList_toList⟩
    rw [List.isSuffixOf?_eq_some_iff_append_eq, ← h, String.toList_append]

theorem beforeTail?_append (x tail : String) : beforeTail? tail (x ++ tail) = some x :=
  beforeTail?_eq_some.mpr rfl

/-- The last slash of a text splits it in one way. -/
theorem eq_of_append_slash {as bs xs ys : List Char} (hx : '/' ∉ xs) (hy : '/' ∉ ys)
    (h : as ++ '/' :: xs = bs ++ '/' :: ys) : as = bs ∧ xs = ys := by
  have htake : ∀ {cs zs : List Char}, '/' ∉ zs →
      (cs ++ '/' :: zs).reverse.takeWhile (· ≠ '/') = zs.reverse := by
    intro cs zs hz
    rw [List.reverse_append, List.reverse_cons, List.append_assoc]
    have hall : ∀ c ∈ zs.reverse, decide (c ≠ '/') = true := by
      intro c hc
      simp only [decide_eq_true_eq]
      rintro rfl
      exact hz (List.mem_reverse.mp hc)
    rw [List.takeWhile_append_of_pos hall]
    simp
  have hxy : xs.reverse = ys.reverse := by
    rw [← htake hx, ← htake hy, h]
  have hxs : xs = ys := List.reverse_injective hxy
  subst hxs
  exact ⟨List.append_cancel_right h, rfl⟩

theorem beforeTail?_index {x a : String} (ha : '/' ∉ a.toList) :
    beforeTail? "/index" (x ++ "/" ++ a) = if a = "index" then some x else none := by
  split
  · next h =>
    subst h
    rw [String.append_assoc]
    exact beforeTail?_append x "/index"
  · next h =>
    rw [Option.eq_none_iff_forall_ne_some]
    intro y hy
    have heq := congrArg String.toList (beforeTail?_eq_some.mp hy)
    simp only [String.toList_append] at heq
    have hsplit : y.toList ++ '/' :: "index".toList = x.toList ++ '/' :: a.toList := by
      simpa using heq
    have hidx := (eq_of_append_slash (by decide) ha hsplit).2
    exact h (String.toList_inj.mp hidx.symm)

theorem replaceChar_of_not_mem {a b : Char} {s : String} (h : a ∉ s.toList) :
    replaceChar a b s = s := by
  have hmap : (s.toList.map fun c => if c = a then b else c) = s.toList := by
    conv_rhs => rw [← List.map_id s.toList]
    refine List.map_congr_left ?_
    intro c hc
    have hne : c ≠ a := fun e => h (e ▸ hc)
    rw [if_neg hne, id]
  rw [replaceChar, hmap, String.ofList_toList]

theorem replaceChar_append (a b : Char) (s s' : String) :
    replaceChar a b (s ++ s') = replaceChar a b s ++ replaceChar a b s' := by
  simp [replaceChar]

theorem not_mem_replaceChar {a b : Char} (hab : a ≠ b) (s : String) :
    a ∉ (replaceChar a b s).toList := by
  rw [replaceChar, String.toList_ofList, List.mem_map]
  rintro ⟨c, _, hc⟩
  by_cases h : c = a
  · rw [if_pos h] at hc
    exact hab hc.symm
  · rw [if_neg h] at hc
    exact h hc

/-- The pieces of a list between the places where it is split hold no such place, and nothing that the
list does not. -/
theorem mem_splitOnP {α : Type} {p : α → Bool} {xs piece : List α} (h : piece ∈ xs.splitOnP p) {x : α}
    (hx : x ∈ piece) : x ∈ xs ∧ ¬ p x := by
  induction xs generalizing piece with
  | nil =>
    rw [List.splitOnP_nil, List.mem_singleton] at h
    simp [h] at hx
  | cons y ys ih =>
    rw [List.splitOnP_cons_eq_if_modifyHead] at h
    split at h
    · rcases List.mem_cons.mp h with rfl | h
      · cases hx
      · exact (ih h hx).imp_left (List.mem_cons_of_mem y)
    · next hy =>
      obtain ⟨first, rest, hsplit⟩ := List.exists_cons_of_ne_nil (List.splitOnP_ne_nil p ys)
      rw [hsplit, List.modifyHead_cons] at h
      rcases List.mem_cons.mp h with rfl | h
      · rcases List.mem_cons.mp hx with rfl | hx
        · exact ⟨List.mem_cons_self .., hy⟩
        · exact (ih (hsplit ▸ List.mem_cons_self ..) hx).imp_left (List.mem_cons_of_mem y)
      · exact (ih (hsplit ▸ List.mem_cons_of_mem first h) hx).imp_left (List.mem_cons_of_mem y)

/-- What does not split a list stands in one of the pieces. -/
theorem exists_mem_splitOnP {α : Type} {p : α → Bool} {xs : List α} {x : α} (hx : x ∈ xs)
    (hp : ¬ p x) : ∃ piece ∈ xs.splitOnP p, x ∈ piece := by
  induction xs with
  | nil => cases hx
  | cons y ys ih =>
    obtain ⟨first, rest, hsplit⟩ := List.exists_cons_of_ne_nil (List.splitOnP_ne_nil p ys)
    rw [hsplit] at ih
    rw [List.splitOnP_cons_eq_if_modifyHead, hsplit, List.modifyHead_cons]
    rcases List.mem_cons.mp hx with rfl | hx
    · rw [if_neg hp]
      exact ⟨x :: first, List.mem_cons_self .., List.mem_cons_self ..⟩
    · obtain ⟨piece, hpiece, hmem⟩ := ih hx
      split
      · exact ⟨piece, List.mem_cons_of_mem [] hpiece, hmem⟩
      · rcases List.mem_cons.mp hpiece with rfl | hpiece
        · exact ⟨y :: piece, List.mem_cons_self .., List.mem_cons_of_mem y hmem⟩
        · exact ⟨piece, List.mem_cons_of_mem _ hpiece, hmem⟩

theorem mem_splitOn_slash {cs piece : List Char} (h : piece ∈ cs.splitOn '/') :
    '/' ∉ piece ∧ ∀ c ∈ piece, c ∈ cs := by
  have hpiece : ∀ c ∈ piece, c ∈ cs ∧ ¬ (c == '/') := fun c hc => mem_splitOnP h hc
  exact ⟨fun hslash => (hpiece '/' hslash).2 rfl, fun c hc => (hpiece c hc).1⟩

theorem not_mem_intercalate {a : Char} {sep : String} (ha : a ∉ sep.toList) {ns : List String}
    (h : ∀ n ∈ ns, a ∉ n.toList) : a ∉ (sep.intercalate ns).toList := by
  induction ns with
  | nil => simp
  | cons n ns ih =>
    have hn := h n (List.mem_cons_self ..)
    have hns := ih fun m hm => h m (List.mem_cons_of_mem n hm)
    cases ns with
    | nil => simpa using hn
    | cons m ns =>
      rw [String.intercalate_cons_cons, String.toList_append, String.toList_append]
      simp only [List.mem_append, not_or]
      exact ⟨⟨hn, ha⟩, hns⟩

theorem splitAt_intercalate {ns : List String} (hn : ns ≠ []) (hs : ∀ n ∈ ns, '/' ∉ n.toList) :
    splitAt '/' ("/".intercalate ns) = ns := by
  have hslash : "/".toList = ['/'] := rfl
  rw [splitAt, String.toList_intercalate, hslash, List.splitOn_intercalate]
  · simp
  · simpa using hs
  · simpa using hn

theorem intercalate_splitAt (s : String) : "/".intercalate (splitAt '/' s) = s := by
  have hslash : "/".toList = ['/'] := rfl
  have hid : (splitAt '/' s).map String.toList = s.toList.splitOn '/' := by
    simp [splitAt]
  rw [← String.toList_inj, String.toList_intercalate, hslash, hid]
  exact List.intercalate_splitOn '/'

theorem splitAt_append (s s' : String) :
    splitAt '/' (s ++ "/" ++ s') = splitAt '/' s ++ splitAt '/' s' := by
  have hlist : (s ++ "/" ++ s').toList = s.toList ++ '/' :: s'.toList := by simp
  rw [splitAt, hlist, List.splitOn_append_cons_self, List.map_append]
  rfl

theorem intercalate_concat_append (xs : List String) (a b : String) :
    "/".intercalate (xs ++ [a ++ b]) = "/".intercalate (xs ++ [a]) ++ b := by
  by_cases hx : xs = []
  · subst hx
    simp
  · rw [String.intercalate_append_of_ne_nil hx (by simp),
      String.intercalate_append_of_ne_nil hx (by simp), String.intercalate_singleton,
      String.intercalate_singleton, String.append_assoc, String.append_assoc, String.append_assoc]

/-- What is added to a text without a slash is added to its last piece. -/
theorem exists_splitAt_append (s : String) {tail : String} (h : '/' ∉ tail.toList) :
    ∃ front last, splitAt '/' (s ++ tail) = front ++ [last ++ tail] := by
  have hne : splitAt '/' s ≠ [] := by simp [splitAt, List.splitOn_ne_nil]
  have hslash : ∀ n ∈ splitAt '/' s, '/' ∉ n.toList := by
    intro n hn
    obtain ⟨piece, hp, rfl⟩ := List.mem_map.mp hn
    rw [String.toList_ofList]
    exact (mem_splitOn_slash hp).1
  have hs := intercalate_splitAt s
  rcases List.eq_nil_or_concat (splitAt '/' s) with hnil | ⟨front, last, hlast⟩
  · exact absurd hnil hne
  rw [hlast, List.concat_eq_append] at hs hslash
  refine ⟨front, last, ?_⟩
  rw [← hs, ← intercalate_concat_append]
  refine splitAt_intercalate (List.concat_ne_nil _ _) ?_
  intro n hn
  rcases List.mem_append.mp hn with hn | hn
  · exact hslash n (List.mem_append_left _ hn)
  · rw [List.mem_singleton.mp hn, String.toList_append, List.mem_append, not_or]
    exact ⟨hslash last (by simp), h⟩

end Text

namespace Path

/-- A name that a place can have in a folder. -/
def IsName (n : String) : Prop := n ≠ "" ∧ n ≠ "." ∧ n ≠ ".."

theorem stepsOf_names {ns : List String} (h : ∀ n ∈ ns, IsName n) :
    stepsOf false ns = ns.map .name := by
  induction ns with
  | nil => rfl
  | cons n ns ih =>
    obtain ⟨h₁, h₂, h₃⟩ := h n (List.mem_cons_self ..)
    rw [List.map_cons, ← ih fun m hm => h m (List.mem_cons_of_mem n hm)]
    simp [stepsOf, counts, stepOf, h₁, h₂, h₃]

theorem steps_names {ns : List String} (h : ∀ n ∈ ns, IsName n) :
    (⟨true, ns⟩ : Path).steps = .root :: ns.map .name := by
  rw [steps_of_rooted rfl, stepsOf_names h]

theorem isName_of_mem_stepsOf {leading : Bool} {ps : List String} {n : String}
    (h : Step.name n ∈ stepsOf leading ps) : n ∈ ps ∧ IsName n := by
  induction ps generalizing leading with
  | nil => simp [stepsOf] at h
  | cons p ps ih =>
    have hrest : Step.name n ∈ stepsOf false ps → n ∈ p :: ps ∧ IsName n :=
      fun h => ⟨List.mem_cons_of_mem p (ih h).1, (ih h).2⟩
    rw [stepsOf] at h
    split at h
    · next hc =>
      rcases List.mem_cons.mp h with h | h
      · unfold stepOf at h
        split at h
        · cases h
        · next hdot =>
          split at h
          · cases h
          · next hup =>
            cases h
            have hne : n ≠ "" := by
              rintro rfl
              simp [counts] at hc
            exact ⟨List.mem_cons_self .., hne, hdot, hup⟩
      · exact hrest h
    · exact hrest h

/-- What the parts of a path hold stands in its spelling, and none of them holds a slash. -/
theorem mem_parts_ofText {s n : String} (h : n ∈ (ofText s).parts) :
    '/' ∉ n.toList ∧ ∀ c ∈ n.toList, c ∈ s.toList := by
  have hpieces : ∀ cs : List Char, n ∈ (cs.splitOn '/').map String.ofList →
      '/' ∉ n.toList ∧ ∀ c ∈ n.toList, c ∈ cs := by
    intro cs hn
    obtain ⟨piece, hp, rfl⟩ := List.mem_map.mp hn
    rw [String.toList_ofList]
    exact Text.mem_splitOn_slash hp
  unfold ofText at h
  split at h
  · simp at h
  · simp at h
  · next cs _ hs =>
    obtain ⟨hno, hsub⟩ := hpieces cs h
    exact ⟨hno, fun c hc => hs ▸ List.mem_cons_of_mem '/' (hsub c hc)⟩
  · exact hpieces s.toList h

theorem toList_intercalate_cons (n : String) (ns : List String) :
    ∃ rest, ("/".intercalate (n :: ns)).toList = n.toList ++ rest := by
  cases ns with
  | nil => exact ⟨[], by simp⟩
  | cons m ns =>
    refine ⟨"/".toList ++ ("/".intercalate (m :: ns)).toList, ?_⟩
    rw [String.intercalate_cons_cons, String.toList_append, String.toList_append,
      List.append_assoc]

/-- A relative path reads back from its spelling. -/
theorem ofText_relative {n : String} {ns : List String} (hn : n ≠ "")
    (hs : ∀ m ∈ n :: ns, '/' ∉ m.toList) :
    ofText ("/".intercalate (n :: ns)) = ⟨false, n :: ns⟩ := by
  have hsplit := Text.splitAt_intercalate (List.cons_ne_nil n ns) hs
  obtain ⟨rest, hrest⟩ := toList_intercalate_cons n ns
  obtain ⟨c, cs, hcs⟩ := List.exists_cons_of_ne_nil (mt String.toList_eq_nil_iff.mp hn)
  have hc : c ≠ '/' := by
    rintro rfl
    exact hs n (List.mem_cons_self ..) (by simp [hcs])
  unfold ofText
  split
  · next h => simp [hrest, hcs] at h
  · next h => simp [hrest, hcs, hc] at h
  · next h => simp [hrest, hcs, hc] at h
  · exact congrArg (Path.mk false) hsplit

/-- A relative path is made of the pieces of its spelling. -/
theorem ofText_of_splitAt {s n : String} {ns : List String} (h : Text.splitAt '/' s = n :: ns)
    (hn : n ≠ "") : ofText s = ⟨false, n :: ns⟩ := by
  have hs : ∀ m ∈ n :: ns, '/' ∉ m.toList := by
    intro m hm
    rw [← h] at hm
    obtain ⟨piece, hp, rfl⟩ := List.mem_map.mp hm
    rw [String.toList_ofList]
    exact (Text.mem_splitOn_slash hp).1
  rw [← Text.intercalate_splitAt s, h]
  exact ofText_relative hn hs

/-- An absolute path reads back from its spelling. -/
theorem ofText_absolute {n : String} {ns : List String} (hn : n ≠ "")
    (hs : ∀ m ∈ n :: ns, '/' ∉ m.toList) :
    ofText ("/" ++ "/".intercalate (n :: ns)) = ⟨true, n :: ns⟩ := by
  have hsplit := Text.splitAt_intercalate (List.cons_ne_nil n ns) hs
  obtain ⟨rest, hrest⟩ := toList_intercalate_cons n ns
  obtain ⟨c, cs, hcs⟩ := List.exists_cons_of_ne_nil (mt String.toList_eq_nil_iff.mp hn)
  have hslash : "/".toList = ['/'] := rfl
  unfold ofText
  rw [String.toList_append, hslash]
  split
  · next h => simp at h
  · next h => simp [hrest, hcs] at h
  · next cs' _ h =>
    cases h
    exact congrArg (Path.mk true) hsplit
  · next h => simp at h

/-- What two lists begin with before they part is their longest common beginning. -/
theorem withoutCommon_append {α : Type} [DecidableEq α] (as bs : List α) :
    ∃ common, as = common ++ (withoutCommon as bs).1 ∧ bs = common ++ (withoutCommon as bs).2 ∧
      ∀ c, c <+: as → c <+: bs → c <+: common := by
  induction as generalizing bs with
  | nil => exact ⟨[], rfl, rfl, fun c hc _ => hc⟩
  | cons a as ih =>
    cases bs with
    | nil => exact ⟨[], rfl, rfl, fun c _ hc => hc⟩
    | cons b bs =>
      rw [withoutCommon]
      split
      · next h =>
        subst h
        obtain ⟨common, has, hbs, hlongest⟩ := ih bs
        refine ⟨a :: common, by rw [List.cons_append, ← has], by rw [List.cons_append, ← hbs], ?_⟩
        intro c hc hc'
        cases c with
        | nil => exact List.nil_prefix
        | cons x c =>
          rw [List.cons_prefix_cons] at hc hc' ⊢
          exact ⟨hc.1, hlongest c hc.2 hc'.2⟩
      · next h =>
        refine ⟨[], rfl, rfl, ?_⟩
        intro c hc hc'
        cases c with
        | nil => exact List.nil_prefix
        | cons x c =>
          rw [List.cons_prefix_cons] at hc hc'
          exact absurd (hc.1.symm.trans hc'.1) h

theorem withoutCommon_map_name (ns ms : List String) :
    withoutCommon (ns.map Step.name) (ms.map Step.name) =
      ((withoutCommon ns ms).1.map .name, (withoutCommon ns ms).2.map .name) := by
  induction ns generalizing ms with
  | nil => rfl
  | cons n ns ih =>
    cases ms with
    | nil => rfl
    | cons m ms =>
      by_cases h : n = m
      · simp [withoutCommon, h, ih]
      · simp [withoutCommon, h]

theorem withoutCommon_self_append {α : Type} [DecidableEq α] (as bs : List α) :
    withoutCommon as (as ++ bs) = ([], bs) := by
  induction as with
  | nil => cases bs <;> rfl
  | cons a as ih => rw [List.cons_append, withoutCommon, if_pos rfl, ih]

theorem relativeParts_names (ns : List String) : relativeParts (ns.map Step.name) = ns := by
  induction ns with
  | nil => rfl
  | cons n ns ih =>
    rw [List.map_cons, relativeParts, List.filterMap_cons]
    exact congrArg (n :: ·) ih

/-- The parts of the way up some steps and then down by these names; a dot if it goes nowhere. -/
def wayParts (up : Nat) (down : List String) : List String :=
  if up = 0 ∧ down = [] then ["."] else List.replicate up ".." ++ down

/-- The way between two places goes up to where they part and down from there. -/
theorem relativeTo?_of_steps {target base : Path} {gs fs : List String}
    (ht : target.steps = .root :: gs.map .name) (hb : base.steps = .root :: fs.map .name) :
    target.relativeTo? base =
      some ⟨false, wayParts (withoutCommon gs fs).2.length (withoutCommon gs fs).1⟩ := by
  rw [relativeTo?, ht, hb, if_pos (by simp), withoutCommon, if_pos rfl, withoutCommon_map_name]
  generalize (withoutCommon gs fs).1 = down
  generalize (withoutCommon gs fs).2 = up
  have hups : (up.map Step.name).map (fun _ => "..") = List.replicate up.length ".." := by
    rw [List.map_const', List.length_map]
  dsimp only
  rw [relativeParts_names, hups, wayParts]
  cases up <;> cases down <;> simp [List.replicate_succ]

theorem relativeTo?_names {gs fs : List String} (hg : ∀ n ∈ gs, IsName n)
    (hf : ∀ n ∈ fs, IsName n) (hnot : ¬ gs <+: fs) :
    ∃ common up down, gs = common ++ down ∧ fs = common ++ up ∧ down ≠ [] ∧
      relativeTo? ⟨true, gs⟩ ⟨true, fs⟩ = some ⟨false, List.replicate up.length ".." ++ down⟩ := by
  obtain ⟨common, hgs, hfs, _⟩ := withoutCommon_append gs fs
  have hne : (withoutCommon gs fs).1 ≠ [] := by
    intro hnil
    rw [hnil, List.append_nil] at hgs
    exact hnot ⟨_, by rw [hfs, ← hgs]⟩
  refine ⟨common, _, _, hgs, hfs, hne, ?_⟩
  rw [relativeTo?_of_steps (steps_names hg) (steps_names hf), wayParts, if_neg fun h => hne h.2]

theorem relativeTo?_self (p : Path) : relativeTo? p p = some ⟨false, ["."]⟩ := by
  have hnone := withoutCommon_self_append p.steps []
  rw [List.append_nil] at hnone
  rw [relativeTo?, if_pos rfl, hnone]
  rfl

/-- The way to a place further up only goes up. -/
theorem relativeTo?_above {gs us : List String} (h : ∀ n ∈ gs ++ us, IsName n) (hus : us ≠ []) :
    relativeTo? ⟨true, gs⟩ ⟨true, gs ++ us⟩ = some ⟨false, List.replicate us.length ".."⟩ := by
  have hgs : ∀ n ∈ gs, IsName n := fun n hn => h n (List.mem_append_left us hn)
  rw [relativeTo?_of_steps (steps_names hgs) (steps_names h), withoutCommon_self_append, wayParts,
    if_neg (by simp [hus]), List.append_nil]

theorem trimEnd_names {ns : List String} (h : ∀ n ∈ ns, IsName n) : trimEnd false ns = ns := by
  induction ns with
  | nil => rfl
  | cons n ns ih =>
    obtain ⟨h₁, h₂, _⟩ := h n (List.mem_cons_self ..)
    have hc : counts false n = true := by simp [counts, h₁, h₂]
    rw [trimEnd, ih fun m hm => h m (List.mem_cons_of_mem n hm)]
    cases ns with
    | nil => simp [hc]
    | cons m ns => rfl

theorem stepsOf_concat (leading : Bool) (front : List String) {n : String} (hn : IsName n) :
    stepsOf leading (front ++ [n]) = stepsOf leading front ++ [.name n] := by
  induction front generalizing leading with
  | nil => simp [stepsOf, counts, stepOf, hn.1, hn.2.1, hn.2.2]
  | cons m front ih =>
    rw [List.cons_append, stepsOf, stepsOf, ih false]
    split <;> rfl

theorem fileName?_concat (rooted : Bool) (front : List String) {n : String} (hn : IsName n) :
    fileName? ⟨rooted, front ++ [n]⟩ = some n := by
  have hlast : (steps ⟨rooted, front ++ [n]⟩).getLast? = some (.name n) := by
    rw [steps, stepsOf_concat false front hn, stepsOf_concat true front hn]
    cases rooted with
    | false => exact List.getLast?_concat ..
    | true =>
      rw [if_pos rfl, ← List.cons_append]
      exact List.getLast?_concat ..
  rw [fileName?, hlast]

theorem isName_of_fileName? {p : Path} {n : String} (h : p.fileName? = some n) : IsName n := by
  unfold fileName? at h
  split at h
  · next m hlast =>
    cases h
    have hmem := List.mem_of_getLast? hlast
    unfold steps at hmem
    split at hmem
    · rcases List.mem_cons.mp hmem with hmem | hmem
      · cases hmem
      · exact (isName_of_mem_stepsOf hmem).2
    · exact (isName_of_mem_stepsOf hmem).2
  · cases h

theorem parent?_concat {front : List String} {n : String} (h : ∀ m ∈ front, IsName m)
    (hn : IsName n) : parent? ⟨true, front ++ [n]⟩ = some ⟨true, front⟩ := by
  have hall : ∀ m ∈ front ++ [n], IsName m := by
    intro m hm
    rcases List.mem_append.mp hm with hm | hm
    · exact h m hm
    · rw [List.mem_singleton.mp hm]
      exact hn
  have htrim : (trimmed ⟨true, front ++ [n]⟩).parts = front ++ [n] := trimEnd_names hall
  unfold parent?
  rw [htrim]
  split
  · next hnil => exact absurd hnil (List.concat_ne_nil n front)
  · rw [List.dropLast_concat]
    exact congrArg (some ∘ Path.mk true) (trimEnd_names h)

theorem join_names {ns ms : List String} (h : ∀ m ∈ ns, IsName m) (hms : ms ≠ []) :
    join ⟨true, ns⟩ ⟨false, ms⟩ = ⟨true, ns ++ ms⟩ := by
  have hlast : ns.getLast? ≠ some "" := by
    intro hl
    exact (h "" (List.mem_of_getLast? hl)).1 rfl
  cases ns with
  | nil => rfl
  | cons n ns => simp [join, hlast, hms]

/-- A name with an extension is a name. -/
theorem isName_extension (x : String) {ext : String} (h : ext ∈ Extension.probed) :
    IsName (x ++ ("." ++ ext)) := by
  have hlast : ∀ y : String, (x ++ ("." ++ ext)) = y → y.toList.getLast? ≠ some '.' ∧ y ≠ "" := by
    rintro y rfl
    simp only [Extension.probed, List.mem_cons, List.not_mem_nil, or_false] at h
    rcases h with rfl | rfl | rfl | rfl | rfl | rfl | rfl | rfl <;> simp
  refine ⟨?_, ?_, ?_⟩
  · intro h'
    exact (hlast _ h').2 rfl
  · intro h'
    exact (hlast _ h').1 (by decide)
  · intro h'
    exact (hlast _ h').1 (by decide)

theorem slash_extension {x ext : String} (h : ext ∈ Extension.probed) (hx : '/' ∉ x.toList) :
    '/' ∉ (x ++ ("." ++ ext)).toList := by
  rw [String.toList_append, List.mem_append, not_or]
  refine ⟨hx, ?_⟩
  simp only [Extension.probed, List.mem_cons, List.not_mem_nil, or_false] at h
  rcases h with rfl | rfl | rfl | rfl | rfl | rfl | rfl | rfl <;> decide

/-- The path with an extension added to its spelling. -/
theorem ofText_extension {front : List String} {n ext : String}
    (h : ∀ m ∈ front ++ [n], IsName m ∧ '/' ∉ m.toList) (hext : ext ∈ Extension.probed) :
    ofText (text ⟨true, front ++ [n]⟩ ++ "." ++ ext) = ⟨true, front ++ [n ++ ("." ++ ext)]⟩ := by
  have htext : text ⟨true, front ++ [n]⟩ ++ "." ++ ext =
      "/" ++ "/".intercalate (front ++ [n ++ ("." ++ ext)]) := by
    rw [text, if_pos rfl, Text.intercalate_concat_append, String.append_assoc, String.append_assoc]
  have hslash : ∀ m ∈ front ++ [n ++ ("." ++ ext)], '/' ∉ m.toList := by
    intro m hm
    rcases List.mem_append.mp hm with hm | hm
    · exact (h m (List.mem_append_left _ hm)).2
    · rw [List.mem_singleton.mp hm]
      exact slash_extension hext (h n (by simp)).2
  rw [htext]
  cases front with
  | nil => exact ofText_absolute (isName_extension n hext).1 hslash
  | cons m ms => exact ofText_absolute (h m (by simp)).1.1 hslash

theorem withExtension_names {front : List String} {n : String} (h : ∀ m ∈ front ++ [n], IsName m)
    (ext : String) :
    withExtension ⟨true, front ++ [n]⟩ ext =
      ⟨true, front ++ [(stemAndExtension n).1 ++ ("." ++ ext)]⟩ := by
  have htrim : (trimmed ⟨true, front ++ [n]⟩).parts = front ++ [n] := trimEnd_names h
  rw [withExtension, fileName?_concat true front (h n (by simp))]
  simp only [htrim, List.dropLast_concat, String.append_assoc]

/-- A file name either has no extension, or is its stem, a dot and the extension. -/
theorem stemAndExtension_cases (n : String) :
    stemAndExtension n = (n, none) ∨
      ∃ stem ext, stemAndExtension n = (stem, some ext) ∧ n = stem ++ ("." ++ ext) ∧ stem ≠ "" := by
  unfold stemAndExtension
  cases hs : splitAtDot n with
  | none => exact Or.inl rfl
  | some se =>
    obtain ⟨stem, ext⟩ := se
    by_cases hstem : stem = ""
    · exact Or.inl (by simp [hstem])
    · refine Or.inr ⟨stem, ext, by simp [hstem], ?_, hstem⟩
      unfold splitAtDot at hs
      split at hs
      · next tail d ds hsplit =>
        have hback : ['.'].intercalate (n.toList.reverse.splitOn '.') = n.toList.reverse :=
          List.intercalate_splitOn '.'
        rw [hsplit, List.intercalate_cons_cons] at hback
        have hrev := congrArg List.reverse hback
        cases hs
        rw [← String.toList_inj]
        simpa using hrev.symm
      · cases hs

theorem splitAtDot_append (stem : String) {ext : String} (h : '.' ∉ ext.toList) :
    splitAtDot (stem ++ ("." ++ ext)) = some (stem, ext) := by
  have hsplit : (stem ++ ("." ++ ext)).toList.reverse.splitOn '.' =
      ext.toList.reverse :: stem.toList.reverse.splitOn '.' := by
    have hrev : (stem ++ ("." ++ ext)).toList.reverse =
        ext.toList.reverse ++ '.' :: stem.toList.reverse := by simp
    rw [hrev]
    exact List.splitOn_append_cons_self_of_not_mem (by simpa using h) _
  have hback : ['.'].intercalate (stem.toList.reverse.splitOn '.') = stem.toList.reverse :=
    List.intercalate_splitOn '.'
  rw [splitAtDot, hsplit]
  obtain ⟨d, ds, hds⟩ := List.exists_cons_of_ne_nil (List.splitOn_ne_nil '.' stem.toList.reverse)
  rw [hds] at hback ⊢
  simp [hback]

/-- The extension of a name is what follows its last dot. -/
theorem stemAndExtension_append {stem ext : String} (hstem : stem ≠ "") (h : '.' ∉ ext.toList) :
    stemAndExtension (stem ++ ("." ++ ext)) = (stem, some ext) := by
  rw [stemAndExtension, splitAtDot_append stem h]
  simp [hstem]

theorem mem_of_mem_stem {n : String} {c : Char} (h : c ∈ (stemAndExtension n).1.toList) :
    c ∈ n.toList := by
  rcases stemAndExtension_cases n with e | ⟨stem, ext, e, hn, _⟩
  · rw [e] at h
    exact h
  · rw [e] at h
    rw [hn, String.toList_append]
    exact List.mem_append_left _ h

end Path

namespace Text

/-- A text between slashes begins with `x/` only if its first piece is `x`. -/
theorem head_of_beginsWith {x n : String} {ns : List String} (hx : '/' ∉ x.toList)
    (hs : ∀ m ∈ n :: ns, '/' ∉ m.toList)
    (h : beginsWith (x ++ "/") ("/".intercalate (n :: ns))) : n = x := by
  unfold beginsWith at h
  obtain ⟨rest, hrest⟩ := List.isPrefixOf_iff_prefix.mp h
  have hsplit := splitAt_intercalate (List.cons_ne_nil n ns) hs
  rw [splitAt, ← hrest] at hsplit
  have hslash : (x ++ "/").toList ++ rest = x.toList ++ '/' :: rest := by simp
  rw [hslash, List.splitOn_append_cons_self_of_not_mem hx] at hsplit
  simpa using (List.cons.inj hsplit).1.symm

end Text

end BarrelAlias
