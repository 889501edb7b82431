import BarrelAlias.Proofs.Declaration

/-!
The laws of numbering declarations. Equal declarations get the same number and different ones get
different numbers, however far apart they come, and a number stands for its declaration ever after.
A table that keeps an index beside its keys gives the same numbers, and the index stays the inverse of
the keys.
-/

namespace BarrelAlias

namespace DeclTable

def interned (d : DeclTable) (ks : List DeclKey) : DeclTable :=
  ks.foldl (fun d k => (d.intern k).2) d

variable {d : DeclTable} {k : DeclKey} {id : DeclId}

theorem interned_append (d : DeclTable) (ks ks' : List DeclKey) :
    d.interned (ks ++ ks') = (d.interned ks).interned ks' := List.foldl_append

theorem intern_of_find? (h : d.find? k = some id) : d.intern k = (id, d) := by
  rw [intern, h]

/-- A new declaration gets the next number. -/
theorem intern_of_new (h : d.find? k = none) :
    d.intern k = (d.keys.length, ⟨d.keys ++ [k]⟩) := by
  rw [intern, h]

/-- Numbering declarations loses none and numbers none twice. -/
theorem interned_spec (hd : d.Distinct) (ks : List DeclKey) :
    d.keys <+: (d.interned ks).keys ∧ (d.interned ks).Distinct := by
  induction ks generalizing d with
  | nil => exact ⟨List.prefix_rfl, hd⟩
  | cons k ks ih =>
    obtain ⟨hpre, _, hd₁⟩ := d.intern_spec k hd
    obtain ⟨hpre', hd₂⟩ := ih hd₁
    exact ⟨hpre.trans hpre', hd₂⟩

/-- The number that is found for a declaration is the one that stands for it. -/
theorem find?_eq_some_iff (hd : d.Distinct) : d.find? k = some id ↔ d.Names id k.identity := by
  have hnames : ∀ {id}, d.find? k = some id → d.Names id k.identity := by
    intro id h
    obtain ⟨_, hn, _⟩ := d.intern_spec k hd
    rwa [intern_of_find? h] at hn
  constructor
  · exact hnames
  · rintro ⟨key, hget, hkey⟩
    cases hf : d.find? k with
    | some id' => rw [(hnames hf).inj hd ⟨key, hget, hkey⟩]
    | none =>
      have hnot := List.findIdx?_eq_none_iff.mp hf key (List.mem_of_getElem? hget)
      simp [hkey] at hnot

/-- Two declarations get the same number only if they are the same, whatever is numbered between. -/
theorem intern_fst_eq_iff (hd : d.Distinct) (k k' : DeclKey) (between : List DeclKey) :
    (((d.intern k).2.interned between).intern k').1 = (d.intern k).1 ↔
      k'.identity = k.identity := by
  obtain ⟨_, hn, hd₁⟩ := d.intern_spec k hd
  obtain ⟨hpre, hd₂⟩ := interned_spec hd₁ between
  obtain ⟨hpre', hn', hd₃⟩ := intern_spec _ k' hd₂
  exact Linkage.oneToOne_names hd₃ _ _ _ _ hn' ((hn.mono hpre).mono hpre')

def Grown (d d' : DeclTable) : Prop := ∃ ks, d' = d.interned ks

theorem Grown.refl (d : DeclTable) : d.Grown d := ⟨[], rfl⟩

theorem Grown.trans {d d₁ d₂ : DeclTable} (h : d.Grown d₁) (h' : d₁.Grown d₂) : d.Grown d₂ := by
  obtain ⟨ks, rfl⟩ := h
  obtain ⟨ks', rfl⟩ := h'
  exact ⟨ks ++ ks', (d.interned_append ks ks').symm⟩

theorem grown_intern (d : DeclTable) (k : DeclKey) : d.Grown (d.intern k).2 := ⟨[k], rfl⟩

theorem Grown.keys_prefix {d d' : DeclTable} (h : d.Grown d') (hd : d.Distinct) :
    d.keys <+: d'.keys := by
  obtain ⟨ks, rfl⟩ := h
  exact (interned_spec hd ks).1

theorem Grown.length_le {d d' : DeclTable} (h : d.Grown d') (hd : d.Distinct) :
    d.keys.length ≤ d'.keys.length := (h.keys_prefix hd).length_le

/-- A declaration table that keeps an index from declarations to numbers beside its keys. -/
structure Indexed where
  keys : List DeclKey
  ids : Table Identity DeclId

def Indexed.intern (t : Indexed) (k : DeclKey) : DeclId × Indexed :=
  match t.ids.find? k.identity with
  | some id => (id, t)
  | none =>
    let id := t.keys.length
    (id, ⟨t.keys ++ [k], t.ids.insert k.identity id⟩)

def indexed (d : DeclTable) : Indexed := ⟨d.keys, .numbering (d.keys.map DeclKey.identity)⟩

theorem find?_indexed (d : DeclTable) (k : DeclKey) :
    d.indexed.ids.find? k.identity = d.find? k := by
  rw [indexed, Table.find?_numbering, List.findIdx?_map]
  rfl

/-- The index gives the numbers that are found without it, and goes on doing so. -/
theorem indexed_intern (d : DeclTable) (k : DeclKey) :
    d.indexed.intern k = ((d.intern k).1, (d.intern k).2.indexed) := by
  rw [Indexed.intern, find?_indexed]
  cases hf : d.find? k with
  | some id => rw [intern_of_find? hf]
  | none =>
    have hnew : k.identity ∉ d.keys.map DeclKey.identity := by
      intro hmem
      obtain ⟨key, hkey, he⟩ := List.mem_map.mp hmem
      simpa [he] using List.findIdx?_eq_none_iff.mp hf key hkey
    have hids := Table.insert_numbering hnew
    rw [List.length_map] at hids
    rw [intern_of_new hf]
    simp only [indexed, hids, List.map_append, List.map_cons, List.map_nil]

structure Lawful (d : DeclTable) : Prop where
  /-- The index is the inverse of the keys. -/
  inverse : ∀ id (k : DeclKey), d.indexed.ids.find? k.identity = some id ↔
    ∃ key, d.get? id = some key ∧ key.identity = k.identity
  /-- The index stays in step with the keys. -/
  in_step : ∀ k, d.indexed.intern k = ((d.intern k).1, (d.intern k).2.indexed)
  /-- The number that a declaration gets stands for it. -/
  faithful : ∀ k, ∃ key, (d.intern k).2.get? (d.intern k).1 = some key ∧ key.identity = k.identity
  /-- A declaration that has no number gets the next one. -/
  next : ∀ k : DeclKey, (∀ id, d.indexed.ids.find? k.identity ≠ some id) → (d.intern k).1 = d.keys.length
  /-- What a number stands for does not change. -/
  stable : ∀ ks id key, d.get? id = some key → (d.interned ks).get? id = some key
  /-- Two declarations get one number only if they are the same. -/
  same : ∀ k between k', (((d.intern k).2.interned between).intern k').1 = (d.intern k).1 ↔
    k'.identity = k.identity
  /-- The numbers in use are those below the number of keys. -/
  in_range : ∀ id, id < d.keys.length ↔ ∃ key, d.get? id = some key

theorem lawful_of_distinct (hd : d.Distinct) : d.Lawful where
  inverse id k := by
    rw [find?_indexed]
    exact find?_eq_some_iff hd
  in_step := d.indexed_intern
  faithful k := (d.intern_spec k hd).2.1
  next k hk := by
    have hnone : d.find? k = none := by
      rw [← find?_indexed]
      exact Option.eq_none_iff_forall_ne_some.mpr hk
    rw [intern_of_new hnone]
  stable ks _ _ hget := get?_mono (interned_spec hd ks).1 hget
  same k between k' := intern_fst_eq_iff hd k k' between
  in_range id := by
    constructor
    · exact fun hlt => ⟨d.keys[id], List.getElem?_eq_getElem hlt⟩
    · rintro ⟨key, hget⟩
      exact (List.getElem?_eq_some_iff.mp hget).1

end DeclTable

end BarrelAlias
