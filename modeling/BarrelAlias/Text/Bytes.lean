/-!
Positions in a text, counted in bytes of its UTF-8 form.
-/

namespace BarrelAlias.Text

def byteLength : List Char → Nat
  | [] => 0
  | c :: cs => c.utf8Size + byteLength cs

@[simp] theorem byteLength_nil : byteLength [] = 0 := rfl

@[simp] theorem byteLength_append (as bs : List Char) :
    byteLength (as ++ bs) = byteLength as + byteLength bs := by
  induction as with
  | nil => simp
  | cons a as ih =>
    simp only [List.cons_append, byteLength, ih]
    omega

theorem takeWhile_append_drop (p : Char → Bool) (cs : List Char) :
    cs.takeWhile p ++ cs.drop (cs.takeWhile p).length = cs := by
  obtain ⟨rest, hrest⟩ := List.takeWhile_prefix (l := cs) p
  generalize cs.takeWhile p = run at hrest ⊢
  rw [← hrest, List.drop_left]

/-- A text that begins at byte `n` goes on with `ds` at byte `m`. -/
def GoesOn (n : Nat) (cs : List Char) (m : Nat) (ds : List Char) : Prop :=
  ∃ taken, taken ++ ds = cs ∧ m = n + byteLength taken

namespace GoesOn

variable {n m k : Nat} {cs ds es : List Char}

theorem refl (n : Nat) (cs : List Char) : GoesOn n cs n cs := ⟨[], rfl, rfl⟩

theorem of_append (n : Nat) (taken ds : List Char) :
    GoesOn n (taken ++ ds) (n + byteLength taken) ds := ⟨taken, rfl, rfl⟩

theorem trans (h : GoesOn n cs m ds) (h' : GoesOn m ds k es) : GoesOn n cs k es := by
  obtain ⟨as, rfl, rfl⟩ := h
  obtain ⟨bs, rfl, rfl⟩ := h'
  exact ⟨as ++ bs, List.append_assoc as bs es, by rw [byteLength_append, Nat.add_assoc]⟩

theorem le (h : GoesOn n cs m ds) : n ≤ m := by
  obtain ⟨as, _, rfl⟩ := h
  exact Nat.le_add_right n _

/-- What holds of a text that begins at byte 0 holds of one that begins later. -/
theorem shift (n : Nat) (h : GoesOn 0 cs m ds) : GoesOn n cs (n + m) ds := by
  obtain ⟨as, hcs, hm⟩ := h
  exact ⟨as, hcs, by rw [hm, Nat.zero_add]⟩

theorem cons (n : Nat) (c : Char) (cs : List Char) : GoesOn n (c :: cs) (n + c.utf8Size) cs :=
  ⟨[c], rfl, rfl⟩

/-- After the characters that satisfy a condition the text goes on. -/
theorem takeWhile (p : Char → Bool) (n : Nat) (cs : List Char) :
    GoesOn n cs (n + byteLength (cs.takeWhile p)) (cs.drop (cs.takeWhile p).length) :=
  ⟨_, takeWhile_append_drop p cs, rfl⟩

end GoesOn

/-- The characters after the first `n` bytes. -/
def dropBytes : Nat → List Char → List Char
  | 0, cs => cs
  | _ + 1, [] => []
  | n + 1, c :: cs => dropBytes (n + 1 - c.utf8Size) cs

def takeBytes : Nat → List Char → List Char
  | 0, _ => []
  | _ + 1, [] => []
  | n + 1, c :: cs => c :: takeBytes (n + 1 - c.utf8Size) cs

/-- A stretch of a text, from byte `start` up to byte `stop`. -/
structure Span where
  start : Nat
  stop : Nat
deriving DecidableEq, Repr

def Span.slice (s : Span) (cs : List Char) : List Char :=
  takeBytes (s.stop - s.start) (dropBytes s.start cs)

def Span.replace (s : Span) (new cs : List Char) : List Char :=
  takeBytes s.start cs ++ new ++ dropBytes s.stop cs

def Span.from (s : Span) (origin : Nat) : Span := ⟨s.start - origin, s.stop - origin⟩

/-- The stretch in a text with `n` more bytes in front. -/
def Span.shift (n : Nat) (s : Span) : Span := ⟨n + s.start, n + s.stop⟩

end BarrelAlias.Text
