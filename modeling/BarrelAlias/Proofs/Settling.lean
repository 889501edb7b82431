import BarrelAlias.Proofs.Qualify
import Mathlib.Data.Set.Function

/-!
The search for qualified names comes to rest: every step that changes something uses up a wider name,
so a step for each of them is enough, and then an origin clashes only if it has no wider name left. With
the numbers that are given to those, no two clauses of different lines or names are published alike.
-/

namespace BarrelAlias.Barrel

namespace Choice

theorem widen_of_wider_eq_nil {c : Choice} (h : c.wider = []) : c.widen = c := by
  unfold widen
  rw [h]

theorem length_wider_widen (c : Choice) : c.widen.wider.length = c.wider.length - 1 := by
  unfold widen
  cases h : c.wider with
  | nil => simp [h]
  | cons a as => simp

@[simp] theorem slack_nil : slack [] = 0 := rfl

@[simp] theorem slack_cons (c : Choice) (cs : List Choice) :
    slack (c :: cs) = c.wider.length + slack cs := rfl

/-- If some choices each stay or widen, either nothing changes or the slack shrinks. -/
theorem slack_map_widen (p : Choice → Bool) (cs : List Choice) :
    (cs.map fun c => if p c then c.widen else c) = cs ∨
      slack (cs.map fun c => if p c then c.widen else c) < slack cs := by
  induction cs with
  | nil => exact Or.inl rfl
  | cons c cs ih =>
    have hle : (if p c then c.widen else c).wider.length ≤ c.wider.length := by
      split
      · rw [length_wider_widen]
        omega
      · exact Nat.le_refl _
    -- a choice that widens gives up a wider name, unless it has none and stays what it is
    have hsame : (if p c then c.widen else c) = c ∨
        (if p c then c.widen else c).wider.length < c.wider.length := by
      split
      · cases hw : c.wider with
        | nil => exact Or.inl (widen_of_wider_eq_nil hw)
        | cons a as =>
          right
          rw [length_wider_widen, hw]
          simp
      · exact Or.inl rfl
    simp only [List.map_cons, slack_cons]
    rcases hsame with hc | hc <;> rcases ih with hcs | hcs
    · left
      rw [hc, hcs]
    · right
      omega
    · right
      rw [hcs]
      omega
    · right
      omega

/-- With a step for each wider name the search ends at choices that no step changes. -/
theorem step_settle (taken : List String) {fuel : Nat} {cs : List Choice} (h : slack cs ≤ fuel) :
    step taken (settle taken fuel cs) = settle taken fuel cs := by
  induction fuel generalizing cs with
  | zero =>
    -- no slack is left to shrink
    rcases slack_map_widen (clashes taken cs) cs with hsame | hlt
    · exact hsame
    · omega
  | succ fuel ih =>
    rw [settle]
    split
    · next hsame => exact hsame
    · next hchanged =>
      refine ih ?_
      rcases slack_map_widen (clashes taken cs) cs with hsame | hlt
      · exact absurd hsame hchanged
      · have hstep : slack (step taken cs) < slack cs := hlt
        omega

/-- Where no step changes anything, a choice that clashes has nowhere to turn. -/
theorem wider_eq_nil_of_step_eq {taken : List String} {cs : List Choice} (h : step taken cs = cs)
    {c : Choice} (hc : c ∈ cs) (hclash : clashes taken cs c) : c.wider = [] := by
  have hmap : cs.map (fun c => if clashes taken cs c then c.widen else c) = cs.map id := by
    rw [List.map_id]
    exact h
  have hself : c.widen = c := by
    have := List.map_inj_left.mp hmap c hc
    simpa [hclash] using this
  have hlen := length_wider_widen c
  rw [hself] at hlen
  cases hw : c.wider with
  | nil => rfl
  | cons a as =>
    rw [hw, List.length_cons] at hlen
    omega

end Choice

namespace Registry

theorem step_settled (r : Registry) (taken : List String) (name : String) :
    Choice.step taken (r.settled taken name) = r.settled taken name :=
  Choice.step_settle taken (Nat.le_refl _)

/-- After any registrations every clause is published: under the name given to its origin if its name
is overloaded, else under its own. No two of them share a published name unless they share origin and
name, for a qualified name is neither another one nor a plain name; and an origin is given a number only
if it has no wider name left to turn to. -/
theorem published_injOn (qs : List Request) :
    let r := empty.enterAll qs
    (∀ o, ∀ c ∈ r.clauses o,
      (c.name ∈ r.overloaded →
        r.qualify.aliases.find? (o, c.name) = some (published r.qualify o c.name)) ∧
      (c.name ∉ r.overloaded → published r.qualify o c.name = c.name)) ∧
    Set.InjOn (fun p => published r.qualify p.1 p.2)
      {p : String × String | ∃ c ∈ r.clauses p.1, c.name = p.2} ∧
    (∀ k a, r.qualify.aliases.find? k = some a →
      (∀ k', r.qualify.aliases.find? k' = some a → k' = k) ∧
      ∀ n ∈ r.names.keys, n ∉ r.overloaded → a ≠ n) ∧
    ∀ taken name, ∀ c ∈ r.settled taken name,
      Choice.clashes taken (r.settled taken name) c → c.wider = [] := by
  intro r
  have hs : r.Sound := sound_empty.enterAll qs
  have hap := r.apart_qualify
  refine ⟨?_, ?_, ?_, ?_⟩
  · intro o c hc
    exact ⟨published_overloaded hs hc, published_plain hs o⟩
  · rintro ⟨o, _⟩ ⟨c, hc, rfl⟩ ⟨o', _⟩ ⟨c', hc', rfl⟩ heq
    exact Prod.ext_iff.mpr (published_inj hs hc hc' heq)
  · intro k a hk
    refine ⟨fun k' hk' => hap.given_inj k' k a hk' hk, ?_⟩
    rintro n hn hplain rfl
    exact hap.given_not_plain k a hk (mem_plainNames.mpr ⟨hn, hplain⟩)
  · intro taken name c hc hclash
    exact Choice.wider_eq_nil_of_step_eq (r.step_settled taken name) hc hclash

def imitation : List Request :=
  [⟨"aFoo", "aFoo", 2, "./other"⟩, ⟨"foo", "foo", 0, "./a"⟩, ⟨"foo", "foo", 1, "./b"⟩]

/-- The origin that the plain name imitates is published under a number, apart from all others. -/
theorem imitation_numbered :
    published (empty.enterAll imitation).qualify "./a" "foo" = "aFoo2" ∧
      published (empty.enterAll imitation).qualify "./a" "foo" ≠
        published (empty.enterAll imitation).qualify "./b" "foo" := by
  constructor
  · decide +kernel
  · intro heq
    have hinj := (published_injOn imitation).2.1
    have ha : ⟨"foo", "foo"⟩ ∈ (empty.enterAll imitation).clauses "./a" := by decide +kernel
    have hb : ⟨"foo", "foo"⟩ ∈ (empty.enterAll imitation).clauses "./b" := by decide +kernel
    have hsame : ("./a", "foo") = ("./b", "foo") := hinj ⟨_, ha, rfl⟩ ⟨_, hb, rfl⟩ heq
    exact absurd hsame (by decide)

end Registry

end BarrelAlias.Barrel
