import BarrelAlias.Proofs.Commented

/-!
A configuration text as a row of pieces: quoted texts, comments of both kinds, and single characters.
Every text can be cut into pieces, in one way only. Main statement: of any text, well-formed or not,
stripping leaves the pieces that are neither comments nor commas before a character that closes.
-/

namespace BarrelAlias.Config

open Json

inductive Piece
  | quoted (text : List Char)
  | line (text : List Char)
  | block (text : List Char)
  | single (c : Char)
deriving DecidableEq, Repr

namespace Piece

def chars : Piece → List Char
  | quoted text | line text | block text => text
  | single c => [c]

def isComment : Piece → Bool
  | line _ | block _ => true
  | _ => false

def isFiller : Piece → Bool
  | single c => Text.isBlank c
  | p => p.isComment

end Piece

/-- What a quoted text holds before its end: a quote only behind a backslash that is not itself behind
one. -/
inductive Body : List Char → Prop
  | nil : Body []
  | plain {c : Char} {cs : List Char} : c ≠ '"' → c ≠ '\\' → Body cs → Body (c :: cs)
  | escaped (c : Char) {cs : List Char} : Body cs → Body ('\\' :: c :: cs)

/-- How a quoted text ends: with a quote, or where the text ends, which may be behind a backslash. -/
inductive QuotedEnd : List Char → List Char → Prop
  | closed (rest : List Char) : QuotedEnd ['"'] rest
  | unclosed : QuotedEnd [] []
  | unescaped : QuotedEnd ['\\'] []

/-- How a comment between stars ends: with a star and a slash, or where the text ends. -/
inductive BlockEnd : List Char → List Char → Prop
  | closed (rest : List Char) : BlockEnd ['*', '/'] rest
  | unclosed : BlockEnd [] []

/-- The piece is the first one of a text that goes on with `rest`. A quoted text ends with the next
quote that is not escaped, a comment of a line before its line break, and a comment between stars with
the first star and slash behind the star that opens it. -/
inductive Leads : Piece → List Char → Prop
  | quoted {body tail rest : List Char} : Body body → QuotedEnd tail rest →
      Leads (.quoted ('"' :: (body ++ tail))) rest
  | line {body rest : List Char} : '\n' ∉ body → (∀ c ∈ rest.head?, c = '\n') →
      Leads (.line ('/' :: '/' :: body)) rest
  | block {body tail rest : List Char} : ¬ ['*', '/'] <:+: body → BlockEnd tail rest →
      Leads (.block ('/' :: '*' :: (body ++ tail))) rest
  | single {c : Char} {rest : List Char} : c ≠ '"' →
      (c = '/' → ∀ d ∈ rest.head?, d ≠ '/' ∧ d ≠ '*') → Leads (.single c) rest

inductive Cut : List Char → List Piece → Prop
  | nil : Cut [] []
  | cons {p : Piece} {rest : List Char} {ps : List Piece} :
      Leads p rest → Cut rest ps → Cut (p.chars ++ rest) (p :: ps)

/-- Whether the first piece that is no filler closes a list or an object. -/
def closesNext (ps : List Piece) : Bool :=
  match ps.find? (!·.isFiller) with
  | some (.single c) => c = '}' || c = ']'
  | _ => false

/-- The pieces without comments, and without commas before a piece that closes. -/
def kept : List Piece → List Piece
  | [] => []
  | p :: ps =>
    if p.isComment || (p = .single ',' && closesNext ps) then kept ps else p :: kept ps

variable {p q : Piece} {cs rest rest' : List Char} {ps qs : List Piece}

/-! ### Every text has one cut -/

theorem exists_body (cs : List Char) :
    ∃ body tail rest, cs = body ++ tail ++ rest ∧ Body body ∧ QuotedEnd tail rest := by
  induction cs using List.twoStepInduction with
  | nil => exact ⟨[], [], [], rfl, .nil, .unclosed⟩
  | singleton c =>
    by_cases hquote : c = '"'
    · exact ⟨[], ['"'], [], by rw [hquote]; rfl, .nil, .closed []⟩
    · by_cases hslash : c = '\\'
      · exact ⟨[], ['\\'], [], by rw [hslash]; rfl, .nil, .unescaped⟩
      · exact ⟨[c], [], [], rfl, .plain hquote hslash .nil, .unclosed⟩
  | cons_cons c d cs ih ih' =>
    by_cases hquote : c = '"'
    · exact ⟨[], ['"'], d :: cs, by rw [hquote]; rfl, .nil, .closed (d :: cs)⟩
    · by_cases hslash : c = '\\'
      · obtain ⟨body, tail, rest, he, hb, hend⟩ := ih
        exact ⟨'\\' :: d :: body, tail, rest, by rw [hslash, he]; rfl, .escaped d hb, hend⟩
      · obtain ⟨body, tail, rest, he, hb, hend⟩ := ih' d
        exact ⟨c :: body, tail, rest, by rw [he]; rfl, .plain hquote hslash hb, hend⟩

theorem exists_block (cs : List Char) : ∃ body tail rest, cs = body ++ tail ++ rest ∧
    ¬ ['*', '/'] <:+: body ∧ BlockEnd tail rest := by
  induction cs with
  | nil => exact ⟨[], [], [], rfl, by decide, .unclosed⟩
  | cons c cs ih =>
    by_cases hclose : ['*', '/'] <+: c :: cs
    · obtain ⟨rest, hrest⟩ := hclose
      exact ⟨[], ['*', '/'], rest, hrest.symm, by decide, .closed rest⟩
    · obtain ⟨body, tail, rest, he, hb, hend⟩ := ih
      refine ⟨c :: body, tail, rest, by rw [he]; rfl, ?_, hend⟩
      rw [List.infix_cons_iff, not_or]
      refine ⟨fun hpre => hclose (hpre.trans ?_), hb⟩
      exact ⟨tail ++ rest, by rw [he, List.append_assoc]; rfl⟩

theorem exists_line (cs : List Char) : ∃ body rest, cs = body ++ rest ∧ '\n' ∉ body ∧
    ∀ c ∈ rest.head?, c = '\n' := by
  induction cs with
  | nil => exact ⟨[], [], rfl, by simp, by simp⟩
  | cons c cs ih =>
    by_cases hc : c = '\n'
    · exact ⟨[], c :: cs, rfl, by simp, by simp [hc]⟩
    · obtain ⟨body, rest, he, hb, hend⟩ := ih
      exact ⟨c :: body, rest, by rw [he]; rfl, by simp [hb, Ne.symm hc], hend⟩

theorem exists_leads (c : Char) (cs : List Char) :
    ∃ p rest, c :: cs = p.chars ++ rest ∧ Leads p rest := by
  by_cases hquote : c = '"'
  · obtain ⟨body, tail, rest, he, hb, hend⟩ := exists_body cs
    exact ⟨.quoted ('"' :: (body ++ tail)), rest, by rw [hquote, he]; rfl, .quoted hb hend⟩
  · by_cases hopen : c = '/' ∧ ∃ d ∈ cs.head?, d = '/' ∨ d = '*'
    · obtain ⟨rfl, d, hd, hkind⟩ := hopen
      obtain ⟨cs, rfl⟩ := List.head?_eq_some_iff.mp hd
      rcases hkind with rfl | rfl
      · obtain ⟨body, rest, he, hb, hend⟩ := exists_line cs
        exact ⟨.line ('/' :: '/' :: body), rest, by rw [he]; rfl, .line hb hend⟩
      · obtain ⟨body, tail, rest, he, hb, hend⟩ := exists_block cs
        exact ⟨.block ('/' :: '*' :: (body ++ tail)), rest, by rw [he]; rfl, .block hb hend⟩
    · refine ⟨.single c, cs, rfl, .single hquote ?_⟩
      intro hc d hd
      exact ⟨fun h => hopen ⟨hc, d, hd, .inl h⟩, fun h => hopen ⟨hc, d, hd, .inr h⟩⟩

theorem Leads.chars_ne_nil (h : Leads p rest) : p.chars ≠ [] := by
  cases h <;> exact List.cons_ne_nil _ _

theorem exists_cut (cs : List Char) : ∃ ps, Cut cs ps := by
  induction hn : cs.length using Nat.strongRecOn generalizing cs with
  | _ n ih =>
    cases cs with
    | nil => exact ⟨[], .nil⟩
    | cons c cs =>
      obtain ⟨p, rest, he, hp⟩ := exists_leads c cs
      have hpos : 0 < p.chars.length := List.length_pos_of_ne_nil hp.chars_ne_nil
      have hlen : n = p.chars.length + rest.length := by rw [← hn, he, List.length_append]
      obtain ⟨ps, hps⟩ := ih rest.length (by omega) rest rfl
      exact ⟨p :: ps, he ▸ .cons hp hps⟩

/-- Where a body ends is settled by the text, if a body cannot go on into its end. -/
theorem end_unique {P : List Char → Prop} {End : List Char → List Char → Prop}
    (hstop : ∀ {body more tail rest tail' rest'}, P body → P (body ++ more) → End tail rest →
      End tail' rest' → tail ++ rest = more ++ (tail' ++ rest') → more = [])
    (hend : ∀ {tail rest tail' rest'}, End tail rest → End tail' rest' →
      tail ++ rest = tail' ++ rest' → tail = tail' ∧ rest = rest')
    {body body' tail tail' : List Char} (hb : P body) (hb' : P body') (h : End tail rest)
    (h' : End tail' rest') (he : body ++ tail ++ rest = body' ++ tail' ++ rest') :
    body = body' ∧ tail = tail' ∧ rest = rest' := by
  rw [List.append_assoc, List.append_assoc] at he
  rcases List.append_eq_append_iff.mp he with ⟨more, rfl, hmore⟩ | ⟨more, rfl, hmore⟩
  · obtain rfl := hstop hb hb' h h' hmore
    exact ⟨(List.append_nil _).symm, hend h h' hmore⟩
  · obtain rfl := hstop hb' hb h' h hmore
    exact ⟨List.append_nil _, (hend h' h hmore).imp Eq.symm Eq.symm⟩

theorem QuotedEnd.unique {tail tail' : List Char} (h : QuotedEnd tail rest)
    (h' : QuotedEnd tail' rest') (he : tail ++ rest = tail' ++ rest') :
    tail = tail' ∧ rest = rest' := by
  cases h <;> cases h' <;> simp_all

theorem BlockEnd.unique {tail tail' : List Char} (h : BlockEnd tail rest)
    (h' : BlockEnd tail' rest') (he : tail ++ rest = tail' ++ rest') :
    tail = tail' ∧ rest = rest' := by
  cases h <;> cases h' <;> simp_all

theorem Body.cons_cases {c : Char} (h : Body (c :: cs)) :
    (c ≠ '"' ∧ c ≠ '\\' ∧ Body cs) ∨ c = '\\' ∧ ∃ d ds, cs = d :: ds ∧ Body ds := by
  cases h with
  | plain hquote hslash h => exact .inl ⟨hquote, hslash, h⟩
  | escaped d h => exact .inr ⟨rfl, d, _, rfl, h⟩

theorem Body.of_append {body more : List Char} (h : Body body) (hmore : Body (body ++ more)) :
    Body more := by
  induction h with
  | nil => exact hmore
  | plain _ hslash _ ih =>
    rcases hmore.cons_cases with ⟨_, _, hmore⟩ | ⟨hc, _⟩
    · exact ih hmore
    · exact absurd hc hslash
  | escaped c _ ih =>
    rcases hmore.cons_cases with ⟨_, hslash, _⟩ | ⟨_, d, ds, he, hmore⟩
    · exact absurd rfl hslash
    · obtain ⟨_, rfl⟩ := List.cons_eq_cons.mp he
      exact ih hmore

/-- A body does not go on with its end: with a quote, or a backslash that nothing follows. -/
theorem Body.eq_nil_of_end {body tail ds : List Char} (h : Body body) (hend : QuotedEnd tail rest)
    (he : tail ++ rest = body ++ ds) : body = [] := by
  cases h with
  | nil => rfl
  | plain hquote hslash =>
    cases hend with
    | closed => exact absurd (List.cons_eq_cons.mp he).1.symm hquote
    | unclosed => simp at he
    | unescaped => exact absurd (List.cons_eq_cons.mp he).1.symm hslash
  | escaped c =>
    cases hend with
    | closed => simp at he
    | unclosed => simp at he
    | unescaped => simp at he

/-- A comment between stars does not go on with its end, not even with its star alone. -/
theorem BlockEnd.eq_nil {body more tail tail' : List Char} (h : BlockEnd tail rest)
    (h' : BlockEnd tail' rest') (hmore : ¬ ['*', '/'] <:+: body ++ more)
    (he : tail ++ rest = more ++ (tail' ++ rest')) : more = [] := by
  cases h with
  | unclosed => exact (List.append_eq_nil_iff.mp he.symm).1
  | closed rest =>
    match more with
    | [] => rfl
    | [c] => cases h' <;> simp at he
    | c :: d :: more =>
      simp only [List.cons_append, List.nil_append, List.cons.injEq] at he
      obtain ⟨rfl, rfl, _⟩ := he
      exact absurd ⟨body, more, by simp⟩ hmore

theorem takeWhile_line {body : List Char} (h : '\n' ∉ body) (hend : ∀ c ∈ rest.head?, c = '\n') :
    (body ++ rest).takeWhile (· ≠ '\n') = body := by
  have hpass : ∀ c ∈ body, decide (c ≠ '\n') = true := by
    intro c hc
    rw [decide_eq_true_iff]
    rintro rfl
    exact h hc
  have hnone : rest.takeWhile (· ≠ '\n') = [] := by
    cases rest with
    | nil => rfl
    | cons c rest => rw [hend c rfl]; rfl
  rw [List.takeWhile_append_of_pos hpass, hnone, List.append_nil]

theorem Leads.eq_single {c : Char} (h : Leads (.single c) rest) (h' : Leads q rest')
    (he : c :: rest = q.chars ++ rest') : .single c = q ∧ rest = rest' := by
  cases h with
  | single hquote hslash =>
    cases h' with
    | quoted => exact absurd (List.cons_eq_cons.mp he).1 hquote
    | line =>
      obtain ⟨rfl, rfl⟩ := List.cons_eq_cons.mp he
      exact absurd rfl (hslash rfl _ rfl).1
    | block =>
      obtain ⟨rfl, rfl⟩ := List.cons_eq_cons.mp he
      exact absurd rfl (hslash rfl _ rfl).2
    | single => exact (List.cons_eq_cons.mp he).imp_left (congrArg _)

/-- The first piece of a text and what follows it are settled by the text. -/
theorem Leads.unique (h : Leads p rest) (h' : Leads q rest')
    (he : p.chars ++ rest = q.chars ++ rest') : p = q ∧ rest = rest' := by
  cases q with
  | single c => exact (h'.eq_single h he.symm).imp Eq.symm Eq.symm
  | quoted text =>
    cases h with
    | quoted hb hend =>
      cases h' with
      | quoted hb' hend' =>
        obtain ⟨rfl, rfl, rfl⟩ := end_unique
          (fun hb hmore h _ he => (hb.of_append hmore).eq_nil_of_end h he) QuotedEnd.unique hb hb'
          hend hend' (List.cons_eq_cons.mp he).2
        exact ⟨rfl, rfl⟩
    | line | block => cases h' with | quoted => simp [Piece.chars] at he
    | single hquote hslash => exact (Leads.single hquote hslash).eq_single h' he
  | line text =>
    cases h with
    | @line body _ hb hend =>
      cases h' with
      | @line body' _ hb' hend' =>
        have hopen : body ++ rest = body' ++ rest' :=
          (List.cons_eq_cons.mp (List.cons_eq_cons.mp he).2).2
        have hbody := congrArg (List.takeWhile (· ≠ '\n')) hopen
        rw [takeWhile_line hb hend, takeWhile_line hb' hend'] at hbody
        subst hbody
        exact ⟨rfl, List.append_cancel_left hopen⟩
    | quoted | block => cases h' with | line => simp [Piece.chars] at he
    | single hquote hslash => exact (Leads.single hquote hslash).eq_single h' he
  | block text =>
    cases h with
    | block hb hend =>
      cases h' with
      | block hb' hend' =>
        obtain ⟨rfl, rfl, rfl⟩ := end_unique (P := fun body => ¬ ['*', '/'] <:+: body)
          (fun _ hmore h h' he => h.eq_nil h' hmore he) BlockEnd.unique hb hb' hend hend'
          (List.cons_eq_cons.mp (List.cons_eq_cons.mp he).2).2
        exact ⟨rfl, rfl⟩
    | quoted | line => cases h' with | block => simp [Piece.chars] at he
    | single hquote hslash => exact (Leads.single hquote hslash).eq_single h' he

theorem Cut.unique (h : Cut cs ps) (h' : Cut cs qs) : ps = qs := by
  induction h generalizing qs with
  | nil =>
    generalize he : [] = ds at h'
    cases h' with
    | nil => rfl
    | cons hq => exact absurd (List.append_eq_nil_iff.mp he.symm).1 hq.chars_ne_nil
  | @cons p rest ps hp _ ih =>
    generalize he : p.chars ++ rest = ds at h'
    cases h' with
    | nil => exact absurd (List.append_eq_nil_iff.mp he).1 hp.chars_ne_nil
    | cons hq hqs =>
      obtain ⟨rfl, rfl⟩ := hp.unique hq he
      rw [ih hqs]

theorem Cut.flatMap_chars (h : Cut cs ps) : ps.flatMap Piece.chars = cs := by
  induction h with
  | nil => rfl
  | cons _ _ ih => rw [List.flatMap_cons, ih]

/-! ### Stripping piece by piece -/

theorem strip_body {body : List Char} (h : Body body) (cs : List Char) :
    strip .quoted (body ++ cs) = body ++ strip .quoted cs := by
  induction h with
  | nil => rfl
  | plain hquote hslash _ ih => simp [strip, hquote, hslash, ih]
  | escaped c _ ih => simp [strip, ih]

theorem strip_quotedEnd {tail : List Char} (h : QuotedEnd tail rest) :
    strip .quoted (tail ++ rest) = tail ++ strip .plain rest := by
  cases h <;> simp [strip]

theorem strip_unclosed (star : Bool) {body : List Char}
    (h : ¬ ['*', '/'] <:+: (if star then ['*'] else []) ++ body) :
    strip (.block star) body = [] := by
  induction body generalizing star with
  | nil => simp [strip]
  | cons c body ih =>
    obtain ⟨hc, hb⟩ := not_close_of_not_infix h
    rw [strip, hc]
    exact ih _ hb

theorem nextSignificant_nil (zone : Zone) : nextSignificant zone [] = none := by
  cases zone <;> rfl

/-- A slash that opens no comment counts. -/
theorem nextSignificant_slash {d : Char} (hline : d ≠ '/') (hblock : d ≠ '*') (ds : List Char) :
    nextSignificant .plain ('/' :: d :: ds) = some '/' := by
  have hblank : Text.isBlank '/' = false := by decide
  conv_lhs => unfold nextSignificant
  split
  case h_6 heq _ _ =>
    cases heq
    rw [hblank]
    rfl
  all_goals simp_all

theorem nextSignificant_unclosed (star : Bool) {body : List Char}
    (h : ¬ ['*', '/'] <:+: (if star then ['*'] else []) ++ body) :
    nextSignificant (.block star) body = none := by
  induction body generalizing star with
  | nil => exact nextSignificant_nil _
  | cons c body ih =>
    obtain ⟨hc, hb⟩ := not_close_of_not_infix h
    rw [nextSignificant_block_cons, hc]
    exact ih _ hb

theorem strip_lineEnd (hend : ∀ c ∈ rest.head?, c = '\n') : strip .line rest = strip .plain rest := by
  cases rest with
  | nil => simp [strip]
  | cons c rest =>
    rw [hend c rfl, strip_line_cons, strip_plain_cons (by decide)]
    simp

theorem nextSignificant_lineEnd (hend : ∀ c ∈ rest.head?, c = '\n') :
    nextSignificant .line rest = nextSignificant .plain rest := by
  cases rest with
  | nil => rfl
  | cons c rest =>
    rw [hend c rfl, nextSignificant_line_cons, nextSignificant_plain_cons (by decide)]
    simp [Text.isBlank]

theorem strip_single {c : Char} (h : Leads (.single c) rest) :
    strip .plain (c :: rest) =
      if c = ',' && isTrailing rest then strip .plain rest else c :: strip .plain rest := by
  cases h with
  | single hquote hslash =>
    by_cases hc : c = '/'
    · subst hc
      match rest with
      | [] => simp [strip]
      | d :: ds =>
        obtain ⟨hline, hblock⟩ := hslash rfl d rfl
        simp [strip, hline, hblock]
    · rw [strip_plain_cons hc, if_neg hquote]

theorem nextSignificant_single {c : Char} (h : Leads (.single c) rest) :
    nextSignificant .plain (c :: rest) =
      if Text.isBlank c then nextSignificant .plain rest else some c := by
  cases h with
  | single hquote hslash =>
    by_cases hc : c = '/'
    · subst hc
      match rest with
      | [] => rfl
      | d :: ds =>
        obtain ⟨hline, hblock⟩ := hslash rfl d rfl
        rw [nextSignificant_slash hline hblock, if_neg (by decide)]
    · exact nextSignificant_plain_cons hc rest

/-- What stripping leaves of the first piece. -/
theorem Leads.strip_append (h : Leads p rest) :
    strip .plain (p.chars ++ rest) =
      (if p.isComment || (p = .single ',' && isTrailing rest) then [] else p.chars) ++
        strip .plain rest := by
  cases h with
  | quoted hb hend =>
    simp [Piece.chars, Piece.isComment, strip_plain_cons, strip_body hb, strip_quotedEnd hend]
  | line hb hend =>
    simp [Piece.chars, Piece.isComment, strip_openLine, strip_line hb, strip_lineEnd hend]
  | block hb hend =>
    cases hend with
    | closed rest =>
      simp [Piece.chars, Piece.isComment, strip_openBlock, strip_block false (by simpa using hb)]
    | unclosed =>
      simp [Piece.chars, Piece.isComment, strip_openBlock, strip_unclosed false (by simpa using hb),
        strip]
  | @single c _ hquote hslash =>
    have hsingle := strip_single (.single hquote hslash)
    cases hdrop : c = ',' && isTrailing rest <;>
      simp [Piece.chars, Piece.isComment, hsingle, hdrop]

/-- What the search for the next character that counts makes of the first piece. -/
theorem Leads.nextSignificant_append (h : Leads p rest) :
    nextSignificant .plain (p.chars ++ rest) =
      if p.isFiller then nextSignificant .plain rest else p.chars.head? := by
  cases h with
  | quoted hb hend =>
    simp [Piece.chars, Piece.isFiller, Piece.isComment, nextSignificant_plain_cons, Text.isBlank]
  | line hb hend =>
    simp [Piece.chars, Piece.isFiller, Piece.isComment, nextSignificant_openLine,
      nextSignificant_line hb, nextSignificant_lineEnd hend]
  | block hb hend =>
    cases hend with
    | closed rest =>
      simp [Piece.chars, Piece.isFiller, Piece.isComment, nextSignificant_openBlock,
        nextSignificant_block false (by simpa using hb)]
    | unclosed =>
      simp [Piece.chars, Piece.isFiller, Piece.isComment, nextSignificant_openBlock,
        nextSignificant_unclosed false (by simpa using hb), nextSignificant_nil]
  | single hquote hslash => exact nextSignificant_single (.single hquote hslash)

theorem Cut.isTrailing_eq (h : Cut cs ps) : isTrailing cs = closesNext ps := by
  induction h with
  | nil => rfl
  | @cons p rest ps hp _ ih =>
    rw [isTrailing, hp.nextSignificant_append, closesNext, List.find?_cons]
    cases hfiller : p.isFiller with
    | true => exact ih
    | false =>
      cases hp with
      | quoted | single => rfl
      | line | block => cases hfiller

theorem Cut.strip_eq (h : Cut cs ps) : strip .plain cs = (kept ps).flatMap Piece.chars := by
  induction h with
  | nil => rfl
  | @cons p rest ps hp hps ih =>
    rw [hp.strip_append, kept, ih, hps.isTrailing_eq]
    split <;> simp

/-- Every text has one cut into pieces, of which it is made up, and stripping leaves of it the pieces
that are kept. -/
theorem stripComments_eq_kept (s : String) :
    ∃ ps, (∀ qs, Cut s.toList qs ↔ qs = ps) ∧ s = String.ofList (ps.flatMap Piece.chars) ∧
      stripComments s = String.ofList ((kept ps).flatMap Piece.chars) := by
  obtain ⟨ps, hps⟩ := exists_cut s.toList
  refine ⟨ps, fun qs => ⟨fun hqs => hqs.unique hps, fun he => he ▸ hps⟩, ?_, ?_⟩
  · rw [hps.flatMap_chars, String.ofList_toList]
  · rw [stripComments, hps.strip_eq]

end BarrelAlias.Config
