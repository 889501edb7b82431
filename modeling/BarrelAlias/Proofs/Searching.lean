import BarrelAlias.Proofs.Settling

/-!
The search for qualified names with every look-up checked. Here an origin holds a name by its number in
the row of names that it may take, and both loops, the one that turns origins to wider names and the one
that counts up to a free number, are cut off after `fuel` turns. With enough fuel nothing is cut off and
no number is out of range: the run ends, with the names that `qualify` gives.
-/

namespace BarrelAlias.Barrel

namespace Checked

/-- An origin in the search: the names it may take, and the number of the one that it holds. -/
structure Seat where
  origin : String
  names : List String
  depth : Nat
deriving DecidableEq, Repr

def Seat.held? (s : Seat) : Option String := s.names[s.depth]?

/-- Turns an origin that clashes to its next name, given the names that all origins hold. -/
def Seat.turn (taken chosen : List String) (s : Seat) (held : String) : Seat :=
  if (held ∈ taken || chosen.count held > 1) && s.depth + 1 < s.names.length then
    { s with depth := s.depth + 1 }
  else s

def turn? (taken : List String) (ss : List Seat) : Option (List Seat) := do
  let chosen ← ss.mapM Seat.held?
  return List.zipWith (Seat.turn taken chosen) ss chosen

def search? (taken : List String) : Nat → List Seat → Option (List Seat)
  | 0, _ => none
  | fuel + 1, ss => do
    let next ← turn? taken ss
    if next = ss then some ss else search? taken fuel next

/-- Counts up from `n` to the first number with which the name is not taken. -/
def countUp? (taken : List String) (name : String) : Nat → Nat → Option Nat
  | 0, _ => none
  | fuel + 1, n => if name ++ Nat.repr n ∈ taken then countUp? taken name fuel (n + 1) else some n

/-- Gives an origin the name that it holds, numbered if that name is taken. -/
def assign? (fuel : Nat) (name : String) (n : Naming) (s : Seat) : Option Naming := do
  let held ← s.held?
  if held ∈ n.taken then
    let given := held ++ Nat.repr (← countUp? n.taken held fuel 2)
    return { taken := n.taken ++ [given]
             aliases := n.aliases.insert (s.origin, name) given
             warnings := n.warnings ++ [.numbered name s.origin given] }
  else
    return { n with taken := n.taken ++ [held]
                    aliases := n.aliases.insert (s.origin, name) held }

def seats (r : Registry) (name : String) : List Seat :=
  (r.originsOf name).map fun o => ⟨o, candidates o name, 0⟩

def qualifyName? (fuel : Nat) (r : Registry) (n : Naming) (name : String) : Option Naming := do
  (← search? n.taken fuel (seats r name)).foldlM (assign? fuel name) n

def qualify? (fuel : Nat) (r : Registry) : Option Naming :=
  r.overloadedNames.foldlM (qualifyName? fuel r) ⟨r.plainNames, .empty, []⟩

end Checked

theorem candidates_ne_nil (origin name : String) : candidates origin name ≠ [] := by
  unfold candidates
  split
  · simp
  · next h => simpa [List.range_eq_nil] using h

namespace Choice

def InRow (name : String) (c : Choice) : Prop := c.pick :: c.wider <:+ candidates c.origin name

def seat (name : String) (c : Choice) : Checked.Seat :=
  ⟨c.origin, candidates c.origin name, (candidates c.origin name).length - (c.wider.length + 1)⟩

variable {name : String} {c : Choice} {cs : List Choice} {taken : List String}

theorem inRow_first (name origin : String) : (first name origin).InRow name := by
  have hrow := candidates_ne_nil origin name
  unfold InRow first
  split
  · next h => exact absurd h hrow
  · next c cs h =>
    exact ⟨[], h.symm⟩

theorem InRow.widen (h : c.InRow name) : c.widen.InRow name := by
  unfold Choice.widen
  cases hw : c.wider with
  | nil => exact h
  | cons a as =>
    unfold InRow at h ⊢
    rw [hw] at h
    exact (List.suffix_cons c.pick (a :: as)).trans h

theorem inRow_step (h : ∀ c ∈ cs, c.InRow name) : ∀ c ∈ step taken cs, c.InRow name := by
  intro c hc
  obtain ⟨c', hc', rfl⟩ := List.mem_map.mp hc
  split
  · exact (h c' hc').widen
  · exact h c' hc'

theorem inRow_settle (fuel : Nat) (h : ∀ c ∈ cs, c.InRow name) :
    ∀ c ∈ settle taken fuel cs, c.InRow name := by
  induction fuel generalizing cs with
  | zero => exact h
  | succ fuel ih =>
    rw [settle]
    split
    · exact h
    · exact ih (inRow_step h)

/-- A choice in its row holds the name at its number, and as many wider ones stand behind it. -/
theorem InRow.split (h : c.InRow name) :
    ∃ narrower, candidates c.origin name = narrower ++ c.pick :: c.wider ∧
      (c.seat name).depth = narrower.length := by
  obtain ⟨narrower, h⟩ := h
  refine ⟨narrower, h.symm, ?_⟩
  change (candidates c.origin name).length - (c.wider.length + 1) = narrower.length
  rw [← h, List.length_append, List.length_cons]
  omega

theorem InRow.held? (h : c.InRow name) : (c.seat name).held? = some c.pick := by
  obtain ⟨narrower, hrow, hdepth⟩ := h.split
  change (candidates c.origin name)[(c.seat name).depth]? = _
  rw [hdepth, hrow]
  simp

theorem InRow.depth_add (h : c.InRow name) :
    (c.seat name).depth + 1 + c.wider.length = (candidates c.origin name).length := by
  obtain ⟨narrower, hrow, hdepth⟩ := h.split
  rw [hdepth, hrow, List.length_append, List.length_cons]
  omega

/-- An origin stands at its last name if it has no wider one to turn to. -/
theorem InRow.depth_last_iff (h : c.InRow name) :
    (c.seat name).depth + 1 = (candidates c.origin name).length ↔ c.wider = [] := by
  have hadd := h.depth_add
  rw [← List.length_eq_zero_iff]
  omega

/-- To turn to the next name is to add one to the number, if there is a next name. -/
theorem InRow.seat_widen (h : c.InRow name) : c.widen.seat name =
    if (c.seat name).depth + 1 < (candidates c.origin name).length then
      { c.seat name with depth := (c.seat name).depth + 1 } else c.seat name := by
  have hadd := h.depth_add
  have hw := length_wider_widen c
  cases hwider : c.wider with
  | nil =>
    rw [hwider, List.length_nil] at hadd
    rw [widen_of_wider_eq_nil hwider, if_neg (by omega)]
  | cons a as =>
    rw [hwider, List.length_cons] at hadd hw
    rw [if_pos (by omega)]
    unfold seat at hadd ⊢
    rw [origin_widen, hw, hwider, List.length_cons]
    simp only [Checked.Seat.mk.injEq, true_and]
    rw [hwider, List.length_cons] at hadd
    omega

theorem mapM_held? (h : ∀ c ∈ cs, c.InRow name) :
    (cs.map (seat name)).mapM Checked.Seat.held? = some (cs.map (·.pick)) := by
  rw [List.mapM_map]
  exact mapM_eq_some fun c hc => (h c hc).held?

theorem InRow.turn_seat (h : c.InRow name) (taken : List String) (cs : List Choice) :
    (c.seat name).turn taken (cs.map (·.pick)) c.pick =
      (if clashes taken cs c then c.widen else c).seat name := by
  have hclashes : (c.pick ∈ taken || (cs.map (·.pick)).count c.pick > 1) = clashes taken cs c := rfl
  unfold Checked.Seat.turn
  rw [hclashes]
  cases clashes taken cs c with
  | true =>
    rw [if_pos rfl, h.seat_widen]
    simp only [Bool.true_and, decide_eq_true_eq]
    rfl
  | false => rfl

/-- A turn of the checked search is a step of the search. -/
theorem turn?_seats (taken : List String) (h : ∀ c ∈ cs, c.InRow name) :
    Checked.turn? taken (cs.map (seat name)) = some ((step taken cs).map (seat name)) := by
  unfold Checked.turn?
  rw [mapM_held? h, step]
  simp only [bind, Option.bind, pure, Option.some.injEq, List.zipWith_map, List.zipWith_self,
    List.map_map]
  exact List.map_congr_left fun c hc => (h c hc).turn_seat taken cs

/-- A turn that leaves every number as it is changes nothing. -/
theorem step_eq_of_seats (h : ∀ c ∈ cs, c.InRow name)
    (hsame : (step taken cs).map (seat name) = cs.map (seat name)) : step taken cs = cs := by
  rw [step, List.map_map] at hsame
  have hmap := List.map_inj_left.mp hsame
  rw [step]
  conv_rhs => rw [← List.map_id cs]
  refine List.map_congr_left fun c hc => ?_
  have hseat := hmap c hc
  simp only [Function.comp] at hseat
  split at hseat
  · next hclash =>
    rw [if_pos hclash]
    refine widen_of_wider_eq_nil ((h c hc).depth_last_iff.mp ?_)
    have hadd := (h c hc).depth_add
    rw [(h c hc).seat_widen] at hseat
    split at hseat
    · have := congrArg Checked.Seat.depth hseat
      simp at this
    · omega
  · next hclash =>
    rw [if_neg hclash]
    rfl

/-- With a turn for each wider name and one to see that nothing changes, the checked search ends where
the search settles. -/
theorem search?_seats {fuel slackFuel : Nat} (h : ∀ c ∈ cs, c.InRow name)
    (hslack : slack cs ≤ slackFuel) (hfuel : slackFuel < fuel) :
    Checked.search? taken fuel (cs.map (seat name)) =
      some ((settle taken slackFuel cs).map (seat name)) := by
  induction slackFuel generalizing cs fuel with
  | zero =>
    obtain ⟨fuel, rfl⟩ : ∃ n, fuel = n + 1 := ⟨fuel - 1, by omega⟩
    have hstep : step taken cs = cs := step_settle taken hslack
    rw [Checked.search?, turn?_seats taken h, hstep]
    simp [settle]
  | succ slackFuel ih =>
    obtain ⟨fuel, rfl⟩ : ∃ n, fuel = n + 1 := ⟨fuel - 1, by omega⟩
    rw [Checked.search?, turn?_seats taken h, settle]
    simp only [bind, Option.bind]
    by_cases hsame : step taken cs = cs
    · rw [if_pos (by rw [hsame]), if_pos hsame]
    · have hlt : slack (step taken cs) < slack cs :=
        (slack_map_widen (clashes taken cs) cs).resolve_left hsame
      rw [if_neg (fun e => hsame (step_eq_of_seats h e)), if_neg hsame]
      exact ih (inRow_step h) (by omega) (by omega)

end Choice

namespace Naming

/-- The number given is the first one from 2 on that is free, and among the first few. -/
theorem freeNumber_spec (taken : List String) (name : String) :
    2 ≤ freeNumber taken name ∧ freeNumber taken name ≤ taken.length + 2 ∧
      ∀ m, 2 ≤ m → m < freeNumber taken name → name ++ Nat.repr m ∈ taken := by
  obtain ⟨k, hk, hfree⟩ := exists_free_number taken name
  cases hf : (List.range (taken.length + 1)).find?
      (fun n => decide (name ++ Nat.repr (n + 2) ∉ taken)) with
  | none =>
    have := List.find?_eq_none.mp hf k hk
    simp [hfree] at this
  | some n =>
    have hnumber : freeNumber taken name = n + 2 := by
      unfold freeNumber
      rw [hf]
      rfl
    obtain ⟨hn, i, hi, hget, hbefore⟩ := List.find?_eq_some_iff_getElem.mp hf
    rw [List.length_range] at hi
    rw [List.getElem_range] at hget
    subst hget
    rw [hnumber]
    refine ⟨by omega, by omega, ?_⟩
    intro m hm hlt
    have hearlier := hbefore (m - 2) (by omega)
    simp only [List.getElem_range, decide_not, Bool.not_not, decide_eq_true_eq] at hearlier
    rwa [Nat.sub_add_cancel hm] at hearlier

/-- Counting up ends at the number that is given. -/
theorem countUp?_eq {taken : List String} {name : String} {fuel n : Nat} (hn : 2 ≤ n)
    (hle : n ≤ freeNumber taken name) (hfuel : freeNumber taken name < n + fuel) :
    Checked.countUp? taken name fuel n = some (freeNumber taken name) := by
  induction fuel generalizing n with
  | zero => omega
  | succ fuel ih =>
    rw [Checked.countUp?]
    rcases Nat.lt_or_eq_of_le hle with hlt | rfl
    · rw [if_pos ((freeNumber_spec taken name).2.2 n hn hlt)]
      exact ih (by omega) (by omega) (by omega)
    · rw [if_neg (freeNumber_not_mem taken name)]

theorem length_taken_assign (name : String) (n : Naming) (c : Choice) :
    (n.assign name c).taken.length = n.taken.length + 1 := by
  obtain ⟨a, _, htaken, _⟩ := assign_spec name n c
  rw [htaken, List.length_append, List.length_singleton]

theorem assign?_seat {name : String} {c : Choice} (h : c.InRow name) {n : Naming} {fuel : Nat}
    (hfuel : n.taken.length < fuel) :
    Checked.assign? fuel name n (c.seat name) = some (n.assign name c) := by
  have hnumber := freeNumber_spec n.taken c.pick
  unfold Checked.assign? assign
  rw [h.held?]
  simp only [bind, Option.bind]
  split
  · rw [countUp?_eq (Nat.le_refl 2) hnumber.1 (by omega)]
    rfl
  · rfl

theorem foldlM_assign? {name : String} {cs : List Choice} (h : ∀ c ∈ cs, c.InRow name) {n : Naming}
    {fuel : Nat} (hfuel : n.taken.length + cs.length ≤ fuel) :
    (cs.map (Choice.seat name)).foldlM (Checked.assign? fuel name) n =
      some (cs.foldl (assign name) n) := by
  induction cs generalizing n with
  | nil => rfl
  | cons c cs ih =>
    rw [List.forall_mem_cons] at h
    rw [List.length_cons] at hfuel
    rw [List.map_cons, List.foldlM_cons, assign?_seat h.1 (by omega)]
    refine ih h.2 ?_
    rw [length_taken_assign]
    omega

end Naming

namespace Registry

theorem seats_eq (r : Registry) (name : String) :
    Checked.seats r name = ((r.originsOf name).map (Choice.first name)).map (Choice.seat name) := by
  rw [Checked.seats, List.map_map]
  refine List.map_congr_left fun o _ => ?_
  have hadd := (Choice.inRow_first name o).depth_add
  have hwider : (Choice.first name o).wider.length + 1 = (candidates o name).length := by
    unfold Choice.first
    split
    · next h => exact absurd h (candidates_ne_nil o name)
    · next h => rw [h, List.length_cons]
  simp only [Function.comp, Choice.seat, Choice.origin_first, hwider, Nat.sub_self]

theorem inRow_settled (r : Registry) (taken : List String) (name : String) :
    ∀ c ∈ r.settled taken name, c.InRow name := by
  refine Choice.inRow_settle _ fun c hc => ?_
  obtain ⟨o, _, rfl⟩ := List.mem_map.mp hc
  exact Choice.inRow_first name o

/-- The search of a name ends in range, where its origins settle. -/
theorem search?_seats (r : Registry) (taken : List String) (name : String) {fuel : Nat}
    (hfuel : Choice.slack ((r.originsOf name).map (Choice.first name)) < fuel) :
    Checked.search? taken fuel (Checked.seats r name) =
      some ((r.settled taken name).map (Choice.seat name)) := by
  rw [seats_eq, settled]
  refine Choice.search?_seats (fun c hc => ?_) (Nat.le_refl _) hfuel
  obtain ⟨o, _, rfl⟩ := List.mem_map.mp hc
  exact Choice.inRow_first name o

/-- The names of some overloaded names are given in a checked run as they are in `qualify`, if there is
fuel for the longest search and for as many numbers as there are names. -/
theorem foldlM_qualifyName? (r : Registry) (names : List String) (n : Naming) :
    ∃ enough, ∀ fuel, enough ≤ fuel →
      names.foldlM (Checked.qualifyName? fuel r) n = some (names.foldl r.qualifyName n) := by
  induction names generalizing n with
  | nil => exact ⟨0, fun _ _ => rfl⟩
  | cons name names ih =>
    obtain ⟨enough, hrest⟩ := ih (r.qualifyName n name)
    refine ⟨enough + Choice.slack ((r.originsOf name).map (Choice.first name)) + 1 +
      (n.taken.length + (r.settled n.taken name).length), fun fuel hfuel => ?_⟩
    have hone : Checked.qualifyName? fuel r n name = some (r.qualifyName n name) := by
      unfold Checked.qualifyName?
      rw [r.search?_seats n.taken name (by omega)]
      exact Naming.foldlM_assign? (r.inRow_settled n.taken name) (by omega)
    rw [List.foldlM_cons, hone]
    exact hrest fuel (by omega)

end Registry

end BarrelAlias.Barrel
