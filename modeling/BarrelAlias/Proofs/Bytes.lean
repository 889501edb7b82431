import BarrelAlias.Text.Bytes

/-!
Byte positions in a text. A position is a boundary if it stands between two characters or at an end of
the text; cut at boundaries, stretches of a text join and their bytes add up. A stretch that starts after
it stops, or that has an end inside of a character or beyond the text, cannot be cut out: the checked
forms of the operations on stretches fail there.
-/

namespace BarrelAlias.Text

/-- A character has a byte, so one is taken before the bytes of those after it are counted. -/
theorem byteLength_cons_add (a : Char) (as : List Char) (n : Nat) :
    ∃ k, byteLength (a :: as) + n = k + 1 ∧ k + 1 - a.utf8Size = byteLength as + n := by
  have ha := a.utf8Size_pos
  refine ⟨byteLength (a :: as) + n - 1, ?_, ?_⟩
  · simp only [byteLength]
    omega
  · simp only [byteLength]
    omega

/-- Bytes that reach beyond a first piece are taken from the second. -/
theorem takeBytes_add (as bs : List Char) (n : Nat) :
    takeBytes (byteLength as + n) (as ++ bs) = as ++ takeBytes n bs := by
  induction as with
  | nil => simp
  | cons a as ih =>
    obtain ⟨k, hk, hrest⟩ := byteLength_cons_add a as n
    rw [hk, List.cons_append, takeBytes, hrest, ih, List.cons_append]

theorem dropBytes_add (as bs : List Char) (n : Nat) :
    dropBytes (byteLength as + n) (as ++ bs) = dropBytes n bs := by
  induction as with
  | nil => simp
  | cons a as ih =>
    obtain ⟨k, hk, hrest⟩ := byteLength_cons_add a as n
    rw [hk, List.cons_append, dropBytes, hrest, ih]

theorem takeBytes_append_dropBytes (n : Nat) (cs : List Char) :
    takeBytes n cs ++ dropBytes n cs = cs := by
  induction cs generalizing n with
  | nil => cases n <;> rfl
  | cons c cs ih =>
    cases n with
    | zero => rfl
    | succ n => rw [takeBytes, dropBytes, List.cons_append, ih]

/-- The position stands between two characters of the text or at one of its ends. -/
def IsBoundary (n : Nat) (cs : List Char) : Prop := byteLength (takeBytes n cs) = n

instance (n : Nat) (cs : List Char) : Decidable (IsBoundary n cs) :=
  inferInstanceAs (Decidable (byteLength (takeBytes n cs) = n))

@[simp] theorem takeBytes_zero (cs : List Char) : takeBytes 0 cs = [] := by
  cases cs <;> rfl

@[simp] theorem dropBytes_zero (cs : List Char) : dropBytes 0 cs = cs := by
  cases cs <;> rfl

theorem takeBytes_byteLength (as bs : List Char) : takeBytes (byteLength as) (as ++ bs) = as := by
  simpa using takeBytes_add as bs 0

theorem dropBytes_byteLength (as bs : List Char) : dropBytes (byteLength as) (as ++ bs) = bs := by
  simpa using dropBytes_add as bs 0

/-- A text is split at a byte in one way. -/
theorem append_inj_of_byteLength {as bs cs ds : List Char} (h : as ++ cs = bs ++ ds)
    (hlen : byteLength as = byteLength bs) : as = bs ∧ cs = ds := by
  have has : as = bs := by
    rw [← takeBytes_byteLength as cs, h, hlen, takeBytes_byteLength]
  subst has
  exact ⟨rfl, List.append_cancel_left h⟩

theorem isBoundary_append (as bs : List Char) : IsBoundary (byteLength as) (as ++ bs) := by
  rw [IsBoundary, takeBytes_byteLength]

theorem isBoundary_zero (cs : List Char) : IsBoundary 0 cs := by
  simp [IsBoundary]

theorem isBoundary_byteLength (cs : List Char) : IsBoundary (byteLength cs) cs := by
  simpa using isBoundary_append cs []

theorem GoesOn.isBoundary {n : Nat} {cs ds : List Char} (h : GoesOn 0 cs n ds) :
    IsBoundary n cs := by
  obtain ⟨as, rfl, rfl⟩ := h
  rw [Nat.zero_add]
  exact isBoundary_append as ds

theorem IsBoundary.exists_append {n : Nat} {cs : List Char} (h : IsBoundary n cs) :
    ∃ as bs, cs = as ++ bs ∧ byteLength as = n :=
  ⟨takeBytes n cs, dropBytes n cs, (takeBytes_append_dropBytes n cs).symm, h⟩

theorem IsBoundary.le {n : Nat} {cs : List Char} (h : IsBoundary n cs) : n ≤ byteLength cs := by
  obtain ⟨as, bs, rfl, rfl⟩ := h.exists_append
  simp

namespace Span

/-- The stretch lies in the text, and its ends are boundaries. -/
def Fits (s : Span) (cs : List Char) : Prop :=
  s.start ≤ s.stop ∧ IsBoundary s.start cs ∧ IsBoundary s.stop cs

instance (s : Span) (cs : List Char) : Decidable (s.Fits cs) :=
  inferInstanceAs (Decidable (_ ∧ _))

/-- A text that is made of three pieces, the second of which is the stretch. -/
theorem of_append {s : Span} {as bs : List Char} (hstart : byteLength as = s.start)
    (hstop : byteLength as + byteLength bs = s.stop) (cs : List Char) :
    s.Fits (as ++ (bs ++ cs)) ∧ s.slice (as ++ (bs ++ cs)) = bs ∧
      ∀ new, s.replace new (as ++ (bs ++ cs)) = as ++ new ++ cs := by
  have hlen : s.stop - s.start = byteLength bs := by omega
  refine ⟨⟨by omega, ?_, ?_⟩, ?_, ?_⟩
  · rw [← hstart]
    exact isBoundary_append as (bs ++ cs)
  · rw [← hstop, ← byteLength_append, ← List.append_assoc]
    exact isBoundary_append (as ++ bs) cs
  · rw [slice, hlen, ← hstart, dropBytes_byteLength, takeBytes_byteLength]
  · intro new
    rw [replace, ← hstop, ← hstart, takeBytes_byteLength, dropBytes_add, dropBytes_byteLength]

/-- A stretch that fits cuts the text in three. -/
theorem Fits.exists_append {s : Span} {cs : List Char} (h : s.Fits cs) :
    ∃ as rest, cs = as ++ (s.slice cs ++ rest) ∧ byteLength as = s.start ∧
      byteLength as + byteLength (s.slice cs) = s.stop := by
  obtain ⟨hle, hstart, hstop⟩ := h
  have hlen : byteLength (takeBytes s.start cs) = s.start := hstart
  have hcs := takeBytes_append_dropBytes s.start cs
  refine ⟨takeBytes s.start cs, dropBytes (s.stop - s.start) (dropBytes s.start cs), ?_, hlen, ?_⟩
  · rw [slice, takeBytes_append_dropBytes, hcs]
  · have htake := takeBytes_add (takeBytes s.start cs) (dropBytes s.start cs) (s.stop - s.start)
    rw [hcs, hlen, Nat.add_sub_cancel' hle] at htake
    rw [slice, ← byteLength_append, ← htake]
    exact hstop

theorem Fits.byteLength_slice {s : Span} {cs : List Char} (h : s.Fits cs) :
    byteLength (s.slice cs) = s.stop - s.start := by
  obtain ⟨as, rest, _, hstart, hstop⟩ := h.exists_append
  omega

/-- Two stretches that meet are one. -/
theorem Fits.slice_append {i j k : Nat} {cs : List Char} (hij : (Span.mk i j).Fits cs)
    (hjk : (Span.mk j k).Fits cs) :
    (Span.mk i j).slice cs ++ (Span.mk j k).slice cs = (Span.mk i k).slice cs := by
  obtain ⟨as, rest, hcs, hstart, hstop⟩ := hij.exists_append
  have hle : j ≤ k := hjk.1
  simp only at hstart hstop
  generalize (Span.mk i j).slice cs = bs at hcs hstop ⊢
  subst hcs
  have hdrop : dropBytes j (as ++ (bs ++ rest)) = rest := by
    rw [← hstop, dropBytes_add, dropBytes_byteLength]
  have hall : k - i = byteLength bs + (k - j) := by omega
  rw [slice, slice, hdrop, ← hstart, dropBytes_byteLength]
  rw [← hstart] at hall
  rw [hall, takeBytes_add]

theorem Fits.trans {i j k : Nat} {cs : List Char} (hij : (Span.mk i j).Fits cs)
    (hjk : (Span.mk j k).Fits cs) : (Span.mk i k).Fits cs :=
  ⟨Nat.le_trans hij.1 hjk.1, hij.2.1, hjk.2.2⟩

theorem fits_nil (cs : List Char) : (Span.mk 0 0).Fits cs :=
  ⟨Nat.le_refl _, isBoundary_zero cs, isBoundary_zero cs⟩

theorem slice_whole (cs : List Char) : (Span.mk 0 (byteLength cs)).slice cs = cs := by
  simpa [slice] using takeBytes_byteLength cs []

/-- A stretch further on is cut out of what stands there. -/
theorem slice_shift (front rest : List Char) (s : Span) :
    (s.shift (byteLength front)).slice (front ++ rest) = s.slice rest := by
  rw [slice, slice, shift, dropBytes_add, Nat.add_sub_add_left]

/-- A stretch that begins before a piece of the text goes on after it. -/
theorem slice_across (front piece rest : List Char) (n : Nat) :
    (Span.mk (byteLength front) (byteLength front + (byteLength piece + n))).slice
      (front ++ (piece ++ rest)) = piece ++ (Span.mk 0 n).slice rest := by
  rw [slice, slice, dropBytes_byteLength, Nat.add_sub_cancel_left, takeBytes_add, dropBytes_zero,
    Nat.sub_zero]

def slice? (s : Span) (cs : List Char) : Option (List Char) :=
  if s.Fits cs then some (s.slice cs) else none

def replace? (s : Span) (new cs : List Char) : Option (List Char) :=
  if s.Fits cs then some (s.replace new cs) else none

end Span

@[simp] theorem Span.from_start (s : Span) (origin : Nat) :
    (s.from origin).start = s.start - origin := rfl

@[simp] theorem Span.from_stop (s : Span) (origin : Nat) :
    (s.from origin).stop = s.stop - origin := rfl

def sub? (n m : Nat) : Option Nat := if m ≤ n then some (n - m) else none

def Span.from? (s : Span) (origin : Nat) : Option Span := do
  return ⟨← sub? s.start origin, ← sub? s.stop origin⟩

theorem sub?_of_le {n m : Nat} (h : m ≤ n) : sub? n m = some (n - m) := if_pos h

theorem Span.slice?_of_fits {s : Span} {cs : List Char} (h : s.Fits cs) :
    s.slice? cs = some (s.slice cs) := if_pos h

theorem Span.replace?_of_fits {s : Span} {cs : List Char} (h : s.Fits cs) (new : List Char) :
    s.replace? new cs = some (s.replace new cs) := if_pos h

theorem Span.from?_of_le {s : Span} {origin : Nat} (hstart : origin ≤ s.start)
    (hstop : origin ≤ s.stop) : s.from? origin = some (s.from origin) := by
  rw [from?, sub?_of_le hstart, sub?_of_le hstop]
  rfl

end BarrelAlias.Text
