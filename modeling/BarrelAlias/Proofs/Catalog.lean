import BarrelAlias.Proofs.Registry
import BarrelAlias.Proofs.Table

/-!
The registry by numbers. Here names and origins get numbers when they first come up, the lists of a name
and of an origin stand in rows by number, and a registration fails if a number is out of its row. A
registration in the numbers of a registry never fails: it finds what the registry finds and ends with the
numbers of the registry that comes next.
-/

namespace BarrelAlias.Barrel

/-- As with `DeclId`, numbers of 32 bits are the same ones below `2 ^ 32` names. -/
abbrev NameId := Nat

/-- As with `DeclId`, numbers of 32 bits are the same ones below `2 ^ 32` origins. -/
abbrev OriginId := Nat

structure Catalog where
  names : List String
  nameIds : Table String NameId
  /-- For each name its declarations with the origins that brought them. -/
  bindings : List (List (DeclId × OriginId))
  /-- For each declaration the names it stands under with the origins that brought it. -/
  declNames : Table DeclId (List (NameId × OriginId))
  overloaded : List NameId
  /-- The origins with their exports: the name in the file and the name it is registered under. -/
  lines : List (String × List (String × NameId))
  originIds : Table String OriginId

namespace Catalog

def empty : Catalog := ⟨[], .empty, [], .empty, [], [], .empty⟩

def sourceOf? (c : Catalog) (o : OriginId) : Option String := (c.lines[o]?).map (·.1)

def namesOf (c : Catalog) (decl : DeclId) : List (NameId × OriginId) :=
  (c.declNames.find? decl).getD []

def internName (c : Catalog) (name : String) : NameId × Catalog :=
  let n := c.names.length
  (n, { c with names := c.names ++ [name]
               bindings := c.bindings ++ [[]]
               nameIds := c.nameIds.insert name n })

/-- The number of an origin, which gets a line with nothing in it if it is new. -/
def internOrigin (c : Catalog) (origin : String) : OriginId × Catalog :=
  match c.originIds.find? origin with
  | some o => (o, c)
  | none =>
    let o := c.lines.length
    (o, { c with lines := c.lines ++ [(origin, [])]
                 originIds := c.originIds.insert origin o })

def bind? (c : Catalog) (n : NameId) (exported : String) (decl : DeclId) (o : OriginId) :
    Option Catalog := do
  let known ← c.bindings[n]?
  let line ← c.lines[o]?
  return { c with bindings := c.bindings.set n (known ++ [(decl, o)])
                  declNames := c.declNames.insert decl (c.namesOf decl ++ [(n, o)])
                  lines := c.lines.set o (line.1, line.2 ++ [(exported, n)]) }

/-- Registers an export; every look-up by number has to be in range. -/
def register? (c : Catalog) (q : Request) : Option (Registration × Catalog) :=
  match c.nameIds.find? q.name with
  | none => do
    let (n, c) := c.internName q.name
    let (o, c) := c.internOrigin q.origin
    let also := (c.namesOf q.decl).map (·.1)
    let c ← c.bind? n q.exported q.decl o
    if also.isEmpty then return (.fresh, c)
    else return (.also (← also.mapM (c.names[·]?)), c)
  | some n => do
    let known ← c.bindings[n]?
    match known.find? (·.1 = q.decl) with
    | some (_, o) => return (.duplicate (← c.sourceOf? o), c)
    | none =>
      let sameFile := (c.originIds.find? q.origin).any fun o => known.any (·.2 = o)
      let previous ← known.mapM fun b => c.sourceOf? b.2
      let (o, c) := c.internOrigin q.origin
      let c ← c.bind? n q.exported q.decl o
      if sameFile then return (.sameFile, c)
      else return (.conflict (firstOccurrences previous),
        { c with overloaded := if n ∈ c.overloaded then c.overloaded else c.overloaded ++ [n] })

def registerAll? (c : Catalog) (qs : List Request) : Option Catalog :=
  qs.foldlM (fun c q => (c.register? q).map (·.2)) c

end Catalog

namespace Registry

/-- The registry by the numbers that names and origins have in these lists. -/
def numbered (N O : List String) (r : Registry) : Catalog where
  names := N
  nameIds := .numbering N
  bindings := N.map fun n => (r.bindings n).map fun b => (b.1, O.idxOf b.2)
  declNames := r.decls.mapValues fun ns => ns.map fun b => (N.idxOf b.1, O.idxOf b.2)
  overloaded := r.overloaded.map (N.idxOf ·)
  lines := O.map fun o => (o, (r.clauses o).map fun c => (c.exported, N.idxOf c.name))
  originIds := .numbering O

def catalog (r : Registry) : Catalog := r.numbered r.names.keys r.origins.keys

structure Within (N O : List String) (r : Registry) : Prop where
  bindings : ∀ n, ∀ b ∈ r.bindings n, b.2 ∈ O
  decls : r.decls.All fun _ ns => ∀ b ∈ ns, b.1 ∈ N ∧ b.2 ∈ O
  clauses : ∀ o, ∀ c ∈ r.clauses o, c.name ∈ N
  overloaded : ∀ n ∈ r.overloaded, n ∈ N

abbrev Closed (r : Registry) : Prop := r.Within r.names.keys r.origins.keys

variable {N O : List String} {r : Registry}

theorem Within.mono (h : r.Within N O) {N' O' : List String} (hN : N ⊆ N') (hO : O ⊆ O') :
    r.Within N' O' where
  bindings n b hb := hO (h.bindings n b hb)
  decls d ns he b hb := ⟨hN (h.decls d ns he b hb).1, hO (h.decls d ns he b hb).2⟩
  clauses o c hc := hN (h.clauses o c hc)
  overloaded n hn := hN (h.overloaded n hn)

theorem Within.namesOf (h : r.Within N O) (d : DeclId) : ∀ b ∈ r.namesOf d, b.1 ∈ N ∧ b.2 ∈ O := by
  intro b hb
  unfold Registry.namesOf at hb
  cases hf : r.decls.find? d with
  | none =>
    rw [hf] at hb
    cases hb
  | some ns =>
    rw [hf] at hb
    exact h.decls.of_find? hf b hb

theorem namesOf_numbered (d : DeclId) :
    (r.numbered N O).namesOf d = (r.namesOf d).map fun b => (N.idxOf b.1, O.idxOf b.2) := by
  rw [Catalog.namesOf, namesOf]
  change ((r.decls.mapValues _).find? d).getD [] = _
  rw [Table.find?_mapValues]
  cases r.decls.find? d with
  | none => rfl
  | some ns => rfl

theorem idxOf_concat_self {ks : List String} {k : String} (h : k ∉ ks) :
    (ks ++ [k]).idxOf k = ks.length := by
  rw [List.idxOf_append_of_notMem h, List.idxOf_cons_self, Nat.add_zero]

/-- A new name gets the next number, and all other numbers stay. -/
theorem internName_numbered (h : r.Within N O) {name : String} (hn : name ∉ N)
    (hnil : r.bindings name = []) :
    (r.numbered N O).internName name = ((N ++ [name]).idxOf name, r.numbered (N ++ [name]) O) := by
  have hold : ∀ n ∈ N, (N ++ [name]).idxOf n = N.idxOf n := fun n hn =>
    List.idxOf_append_of_mem hn
  rw [idxOf_concat_self hn]
  unfold Catalog.internName numbered
  simp only [Table.insert_numbering hn, Prod.mk.injEq, Catalog.mk.injEq, true_and, and_true]
  refine ⟨by rw [List.map_append, List.map_singleton, hnil, List.map_nil], ?_, ?_, ?_⟩
  · refine Table.mapValues_congr fun d ns he => List.map_congr_left fun b hb => ?_
    rw [hold b.1 (h.decls d ns he b hb).1]
  · exact List.map_congr_left fun n hn => (hold n (h.overloaded n hn)).symm
  · refine List.map_congr_left fun o _ => congrArg (Prod.mk o) (List.map_congr_left fun c hc => ?_)
    rw [hold c.name (h.clauses o c hc)]

def withOrigin (O : List String) (o : String) : List String := if o ∈ O then O else O ++ [o]

theorem mem_withOrigin_self (O : List String) (o : String) : o ∈ withOrigin O o := by
  unfold withOrigin
  split
  · assumption
  · simp

theorem nodup_withOrigin (hO : O.Nodup) (o : String) : (withOrigin O o).Nodup := by
  unfold withOrigin
  split
  · exact hO
  · next ho => exact List.nodup_append_comm.mp (List.nodup_cons.mpr ⟨ho, hO⟩)

/-- A known origin has its number, and a new one gets the next one, where all others stay. -/
theorem internOrigin_numbered (h : r.Within N O) (hO : O.Nodup) {o : String}
    (hnil : o ∉ O → r.clauses o = []) :
    (r.numbered N O).internOrigin o =
      ((withOrigin O o).idxOf o, r.numbered N (withOrigin O o)) := by
  unfold Catalog.internOrigin withOrigin
  by_cases ho : o ∈ O
  · have hfind : (r.numbered N O).originIds.find? o = some (O.idxOf o) :=
      Table.find?_numbering_of_mem hO ho
    rw [hfind, if_pos ho]
  · have hfind : (r.numbered N O).originIds.find? o = none := Table.find?_numbering_of_not_mem ho
    have hold : ∀ o' ∈ O, (O ++ [o]).idxOf o' = O.idxOf o' := fun o' ho' =>
      List.idxOf_append_of_mem ho'
    rw [hfind, if_neg ho, idxOf_concat_self ho]
    simp only [numbered, List.length_map, Table.insert_numbering ho, Prod.mk.injEq,
      Catalog.mk.injEq, true_and, and_true]
    refine ⟨?_, ?_, by rw [List.map_append, List.map_singleton, hnil ho, List.map_nil]⟩
    · refine List.map_congr_left fun n _ => List.map_congr_left fun b hb => ?_
      rw [hold b.2 (h.bindings n b hb)]
    · refine Table.mapValues_congr fun d ns he => List.map_congr_left fun b hb => ?_
      rw [hold b.2 (h.decls d ns he b hb).2]

/-- In a row of distinct keys the value of one key is replaced at its number. -/
theorem map_set_idxOf {α β : Type} [DecidableEq α] {ks : List α} (hks : ks.Nodup) {k : α}
    (hk : k ∈ ks) {f g : α → β} {v : β} (hv : g k = v) (hfg : ∀ j, j ≠ k → g j = f j) :
    (ks.map f).set (ks.idxOf k) v = ks.map g := by
  have hg : g = Function.update f k v := by
    funext j
    by_cases hj : j = k
    · rw [hj, Function.update_self, hv]
    · rw [Function.update_of_ne hj, hfg j hj]
  rw [hg, hks.map_update, if_pos hk]

theorem getElem?_map_idxOf {α β : Type} [DecidableEq α] {ks : List α} {k : α} (hk : k ∈ ks)
    (f : α → β) : (ks.map f)[ks.idxOf k]? = some (f k) := by
  rw [List.getElem?_map, List.getElem?_idxOf hk, Option.map_some]

/-- An entry by number. -/
theorem bind?_numbered (hN : N.Nodup) (hO : O.Nodup) {q : Request} (hn : q.name ∈ N)
    (ho : q.origin ∈ O) :
    (r.numbered N O).bind? (N.idxOf q.name) q.exported q.decl (O.idxOf q.origin) =
      some ((r.bindRequest q).numbered N O) := by
  unfold Catalog.bind?
  rw [namesOf_numbered]
  simp only [numbered, getElem?_map_idxOf hn, getElem?_map_idxOf ho, Option.bind_eq_bind,
    Option.bind_some, Option.pure_def, Option.some.injEq, Catalog.mk.injEq, true_and]
  refine ⟨map_set_idxOf hN hn ?_ ?_, ?_, rfl, map_set_idxOf hO ho ?_ ?_, trivial⟩
  · rw [bindings_bindRequest, if_pos rfl, List.map_append, List.map_singleton]
  · intro n hne
    rw [bindings_bindRequest, if_neg hne]
  · have hdecls : (r.bindRequest q).decls =
        r.decls.insert q.decl (r.namesOf q.decl ++ [(q.name, q.origin)]) := rfl
    rw [hdecls, Table.mapValues_insert, List.map_append, List.map_singleton]
  · rw [clauses_bindRequest, if_pos rfl, List.map_append, List.map_singleton]
  · intro o hne
    rw [clauses_bindRequest, if_neg hne]

theorem origins_bindRequest (r : Registry) (q : Request) :
    (r.bindRequest q).origins.keys = withOrigin r.origins.keys q.origin := Table.keys_insert _ _ _

theorem clauses_eq_nil_of_not_mem_keys {o : String} (h : o ∉ r.origins.keys) : r.clauses o = [] := by
  rw [clauses, (Table.find?_eq_none_iff r.origins o).mpr h]
  rfl

/-- The texts of numbers in range. -/
theorem mapM_idxOf {α : Type} {f : α → String} {xs : List α} {ks : List String}
    (h : ∀ x ∈ xs, f x ∈ ks) : (xs.map fun x => ks.idxOf (f x)).mapM (ks[·]?) = some (xs.map f) := by
  rw [List.mapM_map]
  exact mapM_eq_some fun x hx => List.getElem?_idxOf (h x hx)

theorem sourceOf?_numbered {o : String} (ho : o ∈ O) :
    (r.numbered N O).sourceOf? (O.idxOf o) = some o := by
  rw [Catalog.sourceOf?, numbered, getElem?_map_idxOf ho, Option.map_some]

variable {q : Request}

/-- The registration of a new name by number. -/
theorem register?_new (hs : r.Sound) (hw : r.Closed) (hn : r.names.find? q.name = none) :
    r.catalog.register? q =
      some ((r.register q.name q.exported q.decl q.origin).1, (r.enter q).catalog) := by
  have hnot : q.name ∉ r.names.keys := (Table.find?_eq_none_iff _ _).mp hn
  have hfind : r.catalog.nameIds.find? q.name = none := Table.find?_numbering_of_not_mem hnot
  have hnames : (r.bindRequest q).names.keys = r.names.keys ++ [q.name] :=
    (Table.keys_insert _ _ _).trans (if_neg hnot)
  have henter : r.enter q = r.bindRequest q := by
    rw [enter, register, hn]
    rfl
  have hN : (r.names.keys ++ [q.name]).Nodup :=
    hnames ▸ Table.nodup_keys_insert _ _ _ hs.names_nodup
  have hwN := hw.mono (List.subset_append_left r.names.keys [q.name]) (List.Subset.refl _)
  have hname := internName_numbered hw hnot (bindings_eq_nil_of_not_mem_keys hnot)
  have horigin := internOrigin_numbered hwN hs.origins_nodup
    (clauses_eq_nil_of_not_mem_keys (o := q.origin))
  have hbind := bind?_numbered (r := r) hN (nodup_withOrigin hs.origins_nodup q.origin)
    (by simp : q.name ∈ _) (mem_withOrigin_self _ _)
  -- the names of the declaration keep their numbers, whatever origin comes up
  have hids : ∀ O, ((r.numbered (r.names.keys ++ [q.name]) O).namesOf q.decl).map (·.1) =
      (r.namesOf q.decl).map fun b => (r.names.keys ++ [q.name]).idxOf b.1 := by
    intro O
    rw [namesOf_numbered, List.map_map]
    rfl
  have htexts : ((r.namesOf q.decl).map fun b => (r.names.keys ++ [q.name]).idxOf b.1).mapM
      ((r.names.keys ++ [q.name])[·]?) = some ((r.namesOf q.decl).map (·.1)) :=
    mapM_idxOf fun b hb => (hwN.namesOf q.decl b hb).1
  unfold Catalog.register?
  rw [hfind]
  simp only [catalog, hname, horigin, hbind, hids, Option.bind_eq_bind, Option.bind_some,
    List.isEmpty_map]
  rw [henter, hnames, origins_bindRequest, register, hn]
  simp only [List.isEmpty_map]
  split
  · rfl
  · change (((r.namesOf q.decl).map fun b => (r.names.keys ++ [q.name]).idxOf b.1).mapM
      ((r.names.keys ++ [q.name])[·]?)).bind _ = _
    rw [htexts]
    rfl

theorem mem_map_idxOf {ns : List String} (hin : ∀ n ∈ ns, n ∈ N) {name : String} :
    N.idxOf name ∈ ns.map (N.idxOf ·) ↔ name ∈ ns := by
  rw [List.mem_map]
  constructor
  · rintro ⟨n, hn, he⟩
    exact (List.idxOf_inj (hin n hn)).mp he ▸ hn
  · exact fun hn => ⟨name, hn, rfl⟩

/-- To mark a name by number is to mark the name. -/
theorem markOverloaded_numbered (hin : ∀ n ∈ r.overloaded, n ∈ N) (name : String) :
    { r.numbered N O with
        overloaded := if N.idxOf name ∈ (r.numbered N O).overloaded then (r.numbered N O).overloaded
                      else (r.numbered N O).overloaded ++ [N.idxOf name] } =
      (r.markOverloaded name).numbered N O := by
  have hmarked : (if N.idxOf name ∈ r.overloaded.map (N.idxOf ·) then r.overloaded.map (N.idxOf ·)
      else r.overloaded.map (N.idxOf ·) ++ [N.idxOf name]) =
        (r.markOverloaded name).overloaded.map (N.idxOf ·) := by
    simp only [mem_map_idxOf hin, markOverloaded]
    split
    · rfl
    · rw [List.map_append, List.map_singleton]
  unfold numbered
  rw [hmarked]
  rfl

/-- An origin brings one of the declarations if it has a number and the number stands with one. -/
theorem any_origin_catalog (hs : r.Sound) {known : List (DeclId × String)}
    (hin : ∀ b ∈ known, b.2 ∈ r.origins.keys) {origin : String} :
    (r.catalog.originIds.find? origin).any (fun o =>
        (known.map fun b => (b.1, r.origins.keys.idxOf b.2)).any (·.2 = o)) =
      known.any (·.2 = origin) := by
  by_cases ho : origin ∈ r.origins.keys
  · have hfind : r.catalog.originIds.find? origin = some (r.origins.keys.idxOf origin) :=
      Table.find?_numbering_of_mem hs.origins_nodup ho
    rw [hfind, Option.any_some, List.any_map, Bool.eq_iff_iff, List.any_eq_true, List.any_eq_true]
    refine exists_congr fun b => and_congr_right fun hb => ?_
    simp only [Function.comp, decide_eq_true_eq]
    exact List.idxOf_inj (hin b hb)
  · have hfind : r.catalog.originIds.find? origin = none := Table.find?_numbering_of_not_mem ho
    rw [hfind, Option.any_none, eq_comm, List.any_eq_false]
    intro b hb he
    exact ho (of_decide_eq_true he ▸ hin b hb)

variable {known : List (DeclId × String)}

theorem bindings_of_known (hk : r.names.find? q.name = some known) : r.bindings q.name = known := by
  rw [bindings, hk]
  rfl

/-- A known name has a number, and its row lists what it is bound to. -/
theorem row_of_known (hs : r.Sound) (hk : r.names.find? q.name = some known) :
    r.catalog.nameIds.find? q.name = some (r.names.keys.idxOf q.name) ∧
      r.catalog.bindings[r.names.keys.idxOf q.name]? =
        some (known.map fun b => (b.1, r.origins.keys.idxOf b.2)) := by
  have hn : q.name ∈ r.names.keys := (Table.mem_keys_iff _ _).mpr ⟨known, hk⟩
  refine ⟨Table.find?_numbering_of_mem hs.names_nodup hn, ?_⟩
  rw [catalog, numbered, getElem?_map_idxOf hn, bindings_of_known hk]

theorem origin_mem_of_known (hw : r.Closed) (hk : r.names.find? q.name = some known) :
    ∀ b ∈ known, b.2 ∈ r.origins.keys :=
  bindings_of_known hk ▸ hw.bindings q.name

/-- The registration of a name for a declaration that it is bound to. -/
theorem register?_bound (hs : r.Sound) (hw : r.Closed) (hk : r.names.find? q.name = some known)
    {b : DeclId × String} (hd : known.find? (fun b => decide (b.1 = q.decl)) = some b) :
    r.catalog.register? q =
      some ((r.register q.name q.exported q.decl q.origin).1, (r.enter q).catalog) := by
  obtain ⟨hid, hrow⟩ := row_of_known hs hk
  have hb := origin_mem_of_known hw hk b (List.mem_of_find?_eq_some hd)
  have henter : r.enter q = r := by simp only [enter, register, hk, hd]
  unfold Catalog.register?
  rw [hid]
  simp only [hrow, Option.bind_eq_bind, Option.bind_some, List.find?_map, Function.comp_def, hd]
  rw [henter, register, hk]
  simp only [hd, Option.map_some, catalog, sourceOf?_numbered hb]
  rfl

theorem register_unbound (hk : r.names.find? q.name = some known)
    (hd : known.find? (fun b => decide (b.1 = q.decl)) = none) :
    r.register q.name q.exported q.decl q.origin =
      if known.any (·.2 = q.origin) then (.sameFile, r.bindRequest q)
      else (.conflict (firstOccurrences (known.map (·.2))),
        (r.bindRequest q).markOverloaded q.name) := by
  rw [register, hk]
  simp only [hd]
  rfl

/-- The registration of a known name for another declaration. -/
theorem register?_unbound (hs : r.Sound) (hw : r.Closed) (hk : r.names.find? q.name = some known)
    (hd : known.find? (fun b => decide (b.1 = q.decl)) = none) :
    r.catalog.register? q =
      some ((r.register q.name q.exported q.decl q.origin).1, (r.enter q).catalog) := by
  obtain ⟨hid, hrow⟩ := row_of_known hs hk
  have hin := origin_mem_of_known hw hk
  have hn : q.name ∈ r.names.keys := (Table.mem_keys_iff _ _).mpr ⟨known, hk⟩
  have hprevious : (known.map fun b => (b.1, r.origins.keys.idxOf b.2)).mapM
      (fun b => r.catalog.sourceOf? b.2) = some (known.map (·.2)) := by
    rw [List.mapM_map]
    exact mapM_eq_some fun b hb => sourceOf?_numbered (hin b hb)
  have hnames : (r.bindRequest q).names.keys = r.names.keys :=
    (Table.keys_insert _ _ _).trans (if_pos hn)
  have horigin := internOrigin_numbered hw hs.origins_nodup
    (clauses_eq_nil_of_not_mem_keys (o := q.origin))
  have hbind := bind?_numbered (r := r) hs.names_nodup
    (nodup_withOrigin hs.origins_nodup q.origin) hn (mem_withOrigin_self _ _)
  unfold Catalog.register?
  rw [hid]
  simp only [hrow, Option.bind_eq_bind, Option.bind_some, List.find?_map, Function.comp_def, hd]
  simp only [Option.map_none, any_origin_catalog hs hin, hprevious, Option.bind_some]
  simp only [catalog, horigin, hbind, Option.bind_some]
  rw [enter, register_unbound hk hd]
  split
  · simp only [origins_bindRequest, hnames]
    rfl
  · have hmark := markOverloaded_numbered (r := r.bindRequest q) (N := r.names.keys)
      (O := withOrigin r.origins.keys q.origin) hw.overloaded q.name
    have hnames' : ((r.bindRequest q).markOverloaded q.name).names.keys = r.names.keys := hnames
    have horigins' : ((r.bindRequest q).markOverloaded q.name).origins.keys =
        withOrigin r.origins.keys q.origin := origins_bindRequest r q
    simp only [hnames', horigins', ← hmark]
    rfl

/-- A registration by number finds what the registry finds, and ends with the numbers of the registry
that comes next. -/
theorem register?_catalog (hs : r.Sound) (hw : r.Closed) (q : Request) :
    r.catalog.register? q =
      some ((r.register q.name q.exported q.decl q.origin).1, (r.enter q).catalog) := by
  cases hk : r.names.find? q.name with
  | none => exact register?_new hs hw hk
  | some known =>
    cases hd : known.find? (fun b => decide (b.1 = q.decl)) with
    | some b => exact register?_bound hs hw hk hd
    | none => exact register?_unbound hs hw hk hd

theorem closed_empty : empty.Closed where
  bindings := by simp
  decls := Table.all_empty
  clauses := by simp
  overloaded := by simp [empty]

theorem Within.bindRequest (h : r.Within N O) (hn : q.name ∈ N) (ho : q.origin ∈ O) :
    (r.bindRequest q).Within N O where
  bindings n b hb := by
    rcases mem_bindings_bindRequest.mp hb with hb | ⟨_, rfl⟩
    · exact h.bindings n b hb
    · exact ho
  decls := by
    refine h.decls.insert fun b hb => ?_
    rcases List.mem_append.mp hb with hb | hb
    · exact h.namesOf q.decl b hb
    · cases List.mem_singleton.mp hb
      exact ⟨hn, ho⟩
  clauses o c hc := by
    rcases mem_clauses_bindRequest.mp hc with hc | ⟨_, rfl⟩
    · exact h.clauses o c hc
    · exact hn
  overloaded := h.overloaded

theorem Within.markOverloaded (h : r.Within N O) {name : String} (hn : name ∈ N) :
    (r.markOverloaded name).Within N O where
  bindings := h.bindings
  decls := h.decls
  clauses := h.clauses
  overloaded n hmem := by
    rcases (mem_overloaded_markOverloaded r name n).mp hmem with rfl | hmem
    · exact hn
    · exact h.overloaded n hmem

theorem closed_enter (h : r.Closed) (q : Request) : (r.enter q).Closed := by
  have hname : q.name ∈ (r.bindRequest q).names.keys :=
    (Table.mem_keys_insert _ _ _ _).mpr (Or.inl rfl)
  have hbind : (r.bindRequest q).Closed := by
    refine (h.mono ?_ ?_).bindRequest hname ((Table.mem_keys_insert _ _ _ _).mpr (Or.inl rfl))
    · exact fun n hn => (Table.mem_keys_insert _ _ _ _).mpr (Or.inr hn)
    · exact fun o ho => (Table.mem_keys_insert _ _ _ _).mpr (Or.inr ho)
  rcases r.enter_cases q with ⟨_, e⟩ | ⟨_, _, e⟩ | ⟨_, _, _, e⟩
  · rw [e]
    exact h
  · rw [e]
    exact hbind
  · rw [e]
    exact hbind.markOverloaded hname

/-- Registrations bring up all names and origins that they speak of. -/
theorem closed_enterAll (h : r.Closed) (qs : List Request) : (r.enterAll qs).Closed := by
  induction qs generalizing r with
  | nil => exact h
  | cons q qs ih => exact ih (closed_enter h q)

/-- Registrations by number never fail, and end with the numbers of the registry. -/
theorem registerAll?_catalog (hs : r.Sound) (hw : r.Closed) (qs : List Request) :
    r.catalog.registerAll? qs = some (r.enterAll qs).catalog := by
  unfold Catalog.registerAll?
  induction qs generalizing r with
  | nil => rfl
  | cons q qs ih =>
    rw [List.foldlM_cons, register?_catalog hs hw q]
    exact ih (hs.enter q) (closed_enter hw q)

end Registry

end BarrelAlias.Barrel
