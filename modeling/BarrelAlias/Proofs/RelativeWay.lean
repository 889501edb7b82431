import BarrelAlias.Proofs.LeadingBack

/-!
The relative path from one place to another. It goes up to where the two places part and down from
there; joined to the place that it starts from and cleaned, it leads to the other. No relative path
that does so takes fewer steps: every way passes a place that both of its ends stand below, and from
one that is higher up than where they part it is further to both.
-/

namespace BarrelAlias

open BarrelAlias.Path (IsName)

/-- Every way from a place passes a place that both of its ends stand below. -/
theorem Location.exists_above (loc : Location) (ss : List Step) :
    ∃ above, above <+: loc ∧ above <+: ss.foldl move loc ∧
      loc.length + (ss.foldl move loc).length ≤ ss.length + 2 * above.length := by
  induction ss generalizing loc with
  | nil => exact ⟨loc, List.prefix_rfl, List.prefix_rfl, by simp only [List.foldl_nil]; omega⟩
  | cons s ss ih =>
    obtain ⟨above, hloc, hend, hlen⟩ := ih (loc.move s)
    rw [List.foldl_cons, List.length_cons]
    cases s with
    | root | here => exact ⟨above, hloc, hend, by simp only [move] at hlen ⊢; omega⟩
    | name n =>
      simp only [move, List.length_append, List.length_singleton] at hloc hend hlen ⊢
      rcases List.prefix_concat_iff.mp hloc with rfl | hloc
      · -- the way never left the name that it took first
        have hbelow : loc <+: loc ++ [n] := List.prefix_append loc [n]
        refine ⟨loc, List.prefix_rfl, hbelow.trans hend, ?_⟩
        simp only [List.length_append, List.length_singleton] at hlen
        omega
      · exact ⟨above, hloc, hend, by omega⟩
    | up =>
      simp only [move, List.length_dropLast] at hloc hend hlen ⊢
      exact ⟨above, hloc.trans loc.dropLast_prefix, hend, by omega⟩

namespace Path

def moves (p : Path) : Nat := (stepsOf false p.parts).length

theorem stepsOf_wayParts (up : Nat) {down : List String} (hdown : ∀ n ∈ down, IsName n) :
    stepsOf false (wayParts up down) = List.replicate up .up ++ down.map .name := by
  unfold wayParts
  split
  · next h =>
    obtain ⟨rfl, rfl⟩ := h
    rfl
  · rw [stepsOf_append, Barrel.stepsOf_ups, stepsOf_names hdown]

/-- A relative path joined to a place leads to another, spelled by names. -/
theorem steps_clean_join {base rel : Path} {fs : List String} (hb : base.rooted)
    (hbase : base.steps = .root :: fs.map .name) (hfs : ∀ n ∈ fs, IsName n)
    (hrel : rel.rooted = false) :
    (base.join rel).clean.steps =
      .root :: ((stepsOf false rel.parts).foldl Location.move fs).map .name := by
  have hname : ∀ n, Step.name n ∈ stepsOf false rel.parts → IsName n :=
    fun n hn => (isName_of_mem_stepsOf hn).2
  obtain ⟨kept, ns, hkept, hmoved, hns⟩ :=
    Location.foldl_move_kept hname (List.prefix_refl fs) (List.forall_mem_nil _)
  rw [List.append_nil] at hmoved
  rw [Barrel.clean_join hb hbase hrel, Location.path, hmoved]
  refine steps_names fun n hn => ?_
  rcases List.mem_append.mp hn with hn | hn
  · exact hfs n (hkept.subset hn)
  · exact hns n hn

/-- Between two absolute paths that never go up there is a relative path. It goes up once for each part
of the base beyond their longest common beginning and then takes the rest of the target; joined to the
base and cleaned it is the target, and no relative path of which this holds takes fewer steps. -/
theorem relativeTo?_shortest {target base : Path} (ht : target.rooted) (hb : base.rooted)
    (htarget : .up ∉ target.steps) (hbase : .up ∉ base.steps) :
    ∃ common down back : List String,
      target.steps = .root :: (common ++ down).map .name ∧
      base.steps = .root :: (common ++ back).map .name ∧
      (∀ c, c <+: common ++ down → c <+: common ++ back → c <+: common) ∧
      ∃ rel, target.relativeTo? base = some rel ∧ rel.rooted = false ∧
        rel.parts =
          (if target.same base then ["."] else List.replicate back.length ".." ++ down) ∧
        (base.join rel).clean.same target ∧
        ∀ rel' : Path, rel'.rooted = false → (base.join rel').clean.same target →
          rel.moves ≤ rel'.moves := by
  obtain ⟨hgsteps, hgs⟩ := steps_of_not_up ht htarget
  obtain ⟨hfsteps, hfs⟩ := steps_of_not_up hb hbase
  have hway := relativeTo?_of_steps hgsteps hfsteps
  generalize target.parts.filter (counts false) = gs at hgsteps hgs hway
  generalize base.parts.filter (counts false) = fs at hfsteps hfs hway
  obtain ⟨common, hg, hf, hlongest⟩ := withoutCommon_append gs fs
  generalize (withoutCommon gs fs).1 = down at hg hway
  generalize (withoutCommon gs fs).2 = back at hf hway
  subst hg hf
  have hdown : ∀ n ∈ down, IsName n := fun n hn => hgs n (List.mem_append_right common hn)
  have hleads : ∀ rel : Path, rel.rooted = false → ((base.join rel).clean.same target ↔
      (stepsOf false rel.parts).foldl Location.move (common ++ back) = common ++ down) := by
    intro rel hrel
    rw [same, beq_iff_eq, steps_clean_join hb hfsteps hfs hrel, hgsteps, List.cons_eq_cons,
      and_iff_right rfl, map_name_injective.eq_iff]
  have hsteps := stepsOf_wayParts back.length hdown
  refine ⟨common, down, back, hgsteps, hfsteps, hlongest, _, hway, rfl, ?_, ?_, ?_⟩
  · have hsame : target.same base ↔ back.length = 0 ∧ down = [] := by
      rw [same, beq_iff_eq, hgsteps, hfsteps, List.cons_eq_cons, and_iff_right rfl,
        map_name_injective.eq_iff, List.append_cancel_left_eq, List.length_eq_zero_iff]
      constructor
      · rintro rfl
        have hle := (hlongest _ List.prefix_rfl List.prefix_rfl).length_le
        rw [List.length_append] at hle
        have hnil : down = [] := List.eq_nil_of_length_eq_zero (by omega)
        exact ⟨hnil, hnil⟩
      · rintro ⟨rfl, rfl⟩
        rfl
    simp only [wayParts, hsame]
  · rw [hleads _ rfl, hsteps, List.foldl_append, Location.foldl_move_up,
      Location.foldl_move_names]
  · intro rel' hrel' hlead
    rw [hleads rel' hrel'] at hlead
    obtain ⟨above, habove, hbelow, hlen⟩ :=
      Location.exists_above (common ++ back) (stepsOf false rel'.parts)
    rw [hlead] at hbelow hlen
    have hle := (hlongest above hbelow habove).length_le
    simp only [moves, hsteps, List.length_append, List.length_replicate, List.length_map] at hlen ⊢
    omega

theorem between_distant_places :
    let target : Path := ⟨true, ["p", "", "lib", ".", "x.ts"]⟩
    let base : Path := ⟨true, ["p", "src", "deep"]⟩
    let rel : Path := ⟨false, ["..", "..", "lib", "x.ts"]⟩
    target.rooted ∧ base.rooted ∧ .up ∉ target.steps ∧ .up ∉ base.steps ∧
      target.relativeTo? base = some rel ∧ (base.join rel).clean.same target ∧
      ∀ rel' : Path, rel'.rooted = false → (base.join rel').clean.same target → 4 ≤ rel'.moves := by
  intro target base rel
  have htarget : .up ∉ target.steps := by decide
  have hbase : .up ∉ base.steps := by decide
  have hrel : target.relativeTo? base = some rel := by decide
  have hrooted : target.rooted ∧ base.rooted := ⟨rfl, rfl⟩
  obtain ⟨_, _, _, _, _, _, rel', hway, _, _, hleads, hshortest⟩ :=
    relativeTo?_shortest hrooted.1 hrooted.2 htarget hbase
  cases hrel.symm.trans hway
  exact ⟨hrooted.1, hrooted.2, htarget, hbase, hrel, hleads, hshortest⟩

end Path

end BarrelAlias
