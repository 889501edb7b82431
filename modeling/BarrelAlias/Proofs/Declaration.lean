import BarrelAlias.Linkage.Exports
import BarrelAlias.Proofs.Table
import Mathlib.Data.List.Forall2
import Mathlib.Data.List.Nodup

/-!
Numbers and the declarations that they stand for. A table of declarations gives each declaration one
number and only ever grows, so maps of numbers can be read as maps of declarations; the operations
that build export maps come out the same on both sides.
-/

namespace BarrelAlias

namespace DeclTable

def Names (d : DeclTable) (id : DeclId) (k : Identity) : Prop :=
  ∃ key, d.get? id = some key ∧ key.identity = k

def Distinct (d : DeclTable) : Prop := (d.keys.map DeclKey.identity).Nodup

theorem Names.unique {d : DeclTable} {id : DeclId} {k k' : Identity} (h : d.Names id k)
    (h' : d.Names id k') : k = k' := by
  obtain ⟨key, hg, rfl⟩ := h
  obtain ⟨key', hg', rfl⟩ := h'
  cases hg.symm.trans hg'
  rfl

theorem Names.inj {d : DeclTable} (hd : d.Distinct) {id id' : DeclId} {k : Identity}
    (h : d.Names id k) (h' : d.Names id' k) : id = id' := by
  obtain ⟨key, hg, rfl⟩ := h
  obtain ⟨key', hg', he⟩ := h'
  have hlt : id < (d.keys.map DeclKey.identity).length := by
    simpa using (List.getElem?_eq_some_iff.mp hg).1
  refine (List.getElem?_inj hlt hd).mp ?_
  rw [get?] at hg hg'
  rw [List.getElem?_map, List.getElem?_map, hg, hg', Option.map_some, Option.map_some, he]

/-- What a number stands for does not change as the table grows. -/
theorem get?_mono {d d' : DeclTable} (h : d.keys <+: d'.keys) {id : DeclId} {key : DeclKey}
    (hget : d.get? id = some key) : d'.get? id = some key := by
  obtain ⟨more, hm⟩ := h
  obtain ⟨hlt, _⟩ := List.getElem?_eq_some_iff.mp hget
  rw [get?, ← hm, List.getElem?_append_left hlt]
  exact hget

theorem Names.mono {d d' : DeclTable} (h : d.keys <+: d'.keys) {id : DeclId} {k : Identity}
    (hn : d.Names id k) : d'.Names id k := by
  obtain ⟨key, hget, rfl⟩ := hn
  exact ⟨key, get?_mono h hget, rfl⟩

/-- A declaration that is asked for has a number, and all others keep theirs. -/
theorem intern_spec (d : DeclTable) (k : DeclKey) (hd : d.Distinct) :
    d.keys <+: (d.intern k).2.keys ∧ (d.intern k).2.Names (d.intern k).1 k.identity ∧
      (d.intern k).2.Distinct := by
  unfold intern find?
  cases hf : d.keys.findIdx? (fun x => decide (x.identity = k.identity)) with
  | some id =>
    refine ⟨List.prefix_rfl, ?_, hd⟩
    obtain ⟨hlt, he, _⟩ := List.findIdx?_eq_some_iff_getElem.mp hf
    refine ⟨d.keys.get ⟨id, hlt⟩, ?_, by simpa using he⟩
    exact List.getElem?_eq_getElem hlt
  | none =>
    refine ⟨List.prefix_append _ _, ⟨k, ?_, rfl⟩, ?_⟩
    · simp [get?]
    · have hnew : ∀ x ∈ d.keys, x.identity ≠ k.identity := by
        intro x hx
        have := List.findIdx?_eq_none_iff.mp hf x hx
        simpa using this
      simp only [Distinct, List.map_append, List.map_cons, List.map_nil]
      refine List.nodup_append.mpr ⟨hd, List.nodup_singleton _, ?_⟩
      intro a ha b hb
      obtain ⟨x, hx, rfl⟩ := List.mem_map.mp ha
      rw [List.mem_singleton] at hb
      exact hb ▸ hnew x hx

end DeclTable

namespace Linkage

abbrev KeyMap := Table String (List Identity)

section Related

variable {α β : Type} {R : α → β → Prop}

/-- A relation that pairs equals with equals. -/
def OneToOne (R : α → β → Prop) : Prop := ∀ a a' b b', R a b → R a' b' → (a = a' ↔ b = b')

theorem mem_iff_of_related (hR : OneToOne R) {as : List α} {bs : List β} (h : List.Forall₂ R as bs)
    {a : α} {b : β} (hab : R a b) : a ∈ as ↔ b ∈ bs := by
  induction h with
  | nil => simp
  | @cons a' b' as bs hab' _ ih =>
    rw [List.mem_cons, List.mem_cons, ih, hR a a' b b' hab hab']

theorem addUnique_related [DecidableEq α] [DecidableEq β] (hR : OneToOne R) {as new : List α}
    {bs new' : List β} (h : List.Forall₂ R as bs) (hnew : List.Forall₂ R new new') :
    List.Forall₂ R (addUnique as new) (addUnique bs new') := by
  unfold addUnique
  induction hnew generalizing as bs with
  | nil => exact h
  | @cons a b new new' hab _ ih =>
    rw [List.foldl_cons, List.foldl_cons]
    refine ih ?_
    by_cases ha : a ∈ as
    · rw [if_pos ha, if_pos ((mem_iff_of_related hR h hab).mp ha)]
      exact h
    · rw [if_neg ha, if_neg fun hb => ha ((mem_iff_of_related hR h hab).mpr hb)]
      exact List.rel_append h (.cons hab .nil)

def RelatedTables (R : α → β → Prop) (m : Table String (List α)) (m' : Table String (List β)) :
    Prop :=
  List.Forall₂ (fun e e' => e.1 = e'.1 ∧ List.Forall₂ R e.2 e'.2) m.entries m'.entries

theorem RelatedTables.find? {m : Table String (List α)} {m' : Table String (List β)}
    (h : RelatedTables R m m') (n : String) :
    (m.find? n = none ∧ m'.find? n = none) ∨
      ∃ as bs, m.find? n = some as ∧ m'.find? n = some bs ∧ List.Forall₂ R as bs := by
  obtain ⟨es⟩ := m
  obtain ⟨es'⟩ := m'
  simp only [RelatedTables] at h
  simp only [Table.find?]
  induction h with
  | nil => simp
  | @cons e e' es es' he _ ih =>
    by_cases hn : e.1 = n
    · have hn' : e'.1 = n := he.1 ▸ hn
      exact Or.inr ⟨e.2, e'.2, by simp [hn], by simp [hn'], he.2⟩
    · have hn' : ¬ e'.1 = n := he.1 ▸ hn
      simpa [hn, hn'] using ih

theorem RelatedTables.getD {m : Table String (List α)} {m' : Table String (List β)}
    (h : RelatedTables R m m') (n : String) :
    List.Forall₂ R ((m.find? n).getD []) ((m'.find? n).getD []) := by
  rcases h.find? n with ⟨hm, hm'⟩ | ⟨as, bs, hm, hm', hab⟩
  · rw [hm, hm']
    exact .nil
  · rw [hm, hm']
    exact hab

theorem RelatedTables.has {m : Table String (List α)} {m' : Table String (List β)}
    (h : RelatedTables R m m') (n : String) : m.has n = m'.has n := by
  rcases h.find? n with ⟨hm, hm'⟩ | ⟨as, bs, hm, hm', _⟩
  · simp [Table.has, hm, hm']
  · simp [Table.has, hm, hm']

theorem RelatedTables.insert {m : Table String (List α)} {m' : Table String (List β)}
    (h : RelatedTables R m m') (n : String) {as : List α} {bs : List β}
    (hab : List.Forall₂ R as bs) : RelatedTables R (m.insert n as) (m'.insert n bs) := by
  obtain ⟨es⟩ := m
  obtain ⟨es'⟩ := m'
  simp only [RelatedTables] at h
  simp only [RelatedTables, Table.insert]
  induction h with
  | nil => exact .cons ⟨rfl, hab⟩ .nil
  | @cons e e' es es' he hes ih =>
    by_cases hn : e.1 = n
    · have hn' : e'.1 = n := he.1 ▸ hn
      simp only [Table.put, hn, hn', ↓reduceIte]
      exact .cons ⟨rfl, hab⟩ hes
    · have hn' : ¬ e'.1 = n := he.1 ▸ hn
      simp only [Table.put, hn, hn', ↓reduceIte]
      exact .cons he ih

theorem RelatedTables.addUnder [DecidableEq α] [DecidableEq β] (hR : OneToOne R)
    {m : Table String (List α)} {m' : Table String (List β)} (h : RelatedTables R m m') (n : String) {as : List α}
    {bs : List β} (hab : List.Forall₂ R as bs) :
    RelatedTables R (addUnder m n as) (addUnder m' n bs) :=
  h.insert n (addUnique_related hR (h.getD n) hab)

theorem RelatedTables.addStar {m new : Table String (List α)} {m' new' : Table String (List β)}
    (h : RelatedTables R m m') (hnew : RelatedTables R new new') :
    RelatedTables R (addStar m new) (addStar m' new') := by
  obtain ⟨es⟩ := new
  obtain ⟨es'⟩ := new'
  simp only [RelatedTables] at hnew
  simp only [Linkage.addStar]
  induction hnew generalizing m m' with
  | nil => exact h
  | @cons e e' es es' he _ ih =>
    rw [List.foldl_cons, List.foldl_cons]
    refine ih ?_
    obtain ⟨n, as⟩ := e
    obtain ⟨n', bs⟩ := e'
    obtain ⟨rfl, hab⟩ := he
    simp only [h.has n]
    split
    · exact h
    · exact h.insert n hab

/-- Leaving out names without declarations. -/
theorem RelatedTables.keep {m : Table String (List α)} {m' : Table String (List β)}
    (h : RelatedTables R m m') :
    RelatedTables R (m.keep fun _ as => !as.isEmpty) (m'.keep fun _ bs => !bs.isEmpty) := by
  obtain ⟨es⟩ := m
  obtain ⟨es'⟩ := m'
  simp only [RelatedTables] at h
  simp only [RelatedTables, Table.keep]
  induction h with
  | nil => exact .nil
  | @cons e e' es es' he _ ih =>
    have hempty : e.2.isEmpty = e'.2.isEmpty := by
      obtain ⟨n, as⟩ := e
      obtain ⟨n', bs⟩ := e'
      cases he.2 with
      | nil => rfl
      | cons _ _ => rfl
    rw [List.filter_cons, List.filter_cons, hempty]
    split
    · exact .cons he ih
    · exact ih

end Related

def Shows (d : DeclTable) (m : ExportMap) (km : KeyMap) : Prop := RelatedTables d.Names m km

theorem oneToOne_names {d : DeclTable} (hd : d.Distinct) : OneToOne d.Names := by
  intro id id' k k' h h'
  constructor
  · rintro rfl
    exact h.unique h'
  · rintro rfl
    exact h.inj hd h'

theorem Shows.mono {d d' : DeclTable} (h : d.keys <+: d'.keys) {m : ExportMap} {km : KeyMap}
    (hs : Shows d m km) : Shows d' m km :=
  List.Forall₂.imp (fun _ _ he => ⟨he.1, he.2.imp fun _ _ hn => hn.mono h⟩) hs

theorem names_unique {d : DeclTable} {ids : List DeclId} {ks ks' : List Identity}
    (h : List.Forall₂ d.Names ids ks) (h' : List.Forall₂ d.Names ids ks') : ks = ks' := by
  induction h generalizing ks' with
  | nil =>
    cases h'
    rfl
  | cons hn _ ih =>
    cases h' with
    | cons hn' h' => rw [hn.unique hn', ih h']

/-- A map of numbers stands for one map of declarations. -/
theorem Shows.unique {d : DeclTable} {m : ExportMap} {km km' : KeyMap} (h : Shows d m km)
    (h' : Shows d m km') : km = km' := by
  obtain ⟨es⟩ := m
  obtain ⟨es₁⟩ := km
  obtain ⟨es₂⟩ := km'
  simp only [Shows, RelatedTables] at h h'
  congr 1
  induction h generalizing es₂ with
  | nil =>
    cases h'
    rfl
  | @cons e e₁ es es₁ he _ ih =>
    cases h' with
    | @cons _ e₂ _ es₂ he' h' =>
      rw [ih es₂ h']
      congr 1
      exact Prod.ext (he.1.symm.trans he'.1) (names_unique he.2 he'.2)

theorem shows_empty (d : DeclTable) : Shows d .empty .empty := List.Forall₂.nil

end Linkage

end BarrelAlias
