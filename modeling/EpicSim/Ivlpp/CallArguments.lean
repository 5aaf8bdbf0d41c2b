import EpicSim.Ivlpp.MacroExpand
import Mathlib.Data.List.DropRight

/-
  The arguments of a macro call, as the scanner splits them.

  Each white token becomes one blank, and one blank is taken off
  at each end of an argument.  A blank and a new line, or two
  new lines, are two tokens.  The zero behind an argument is
  written without a look at what is free of the buffer.
-/

----
-- Scanner
----

namespace EpicSim

open List (length_append append_assoc cons_ne_nil append_nil length_singleton length_nil)

/- The text of a rule that stores it: a string, a character in
   quotes, or any other one.  The stored text ends at a NUL
   byte: source text with one is left out. -/
structure Lexeme where
  text : Bytes
  nonempty : text ≠ []
  head : text.head? ≠ some 32
  last : text.getLast? ≠ some 32
  no_zero : (0 : Fin 256) ∉ text

/- What the rules of `MA_ADD` match.  White space is a run of
   blanks, or a new line with the blanks behind it. -/
inductive ArgToken where
| word (l : Lexeme)
| white
| opening (brace : Bool)
| closing (brace : Bool)
| comma

namespace ArgToken

/- The bytes that are stored. -/
def stored : ArgToken → Bytes
| .word l => l.text
| .white => [32]
| .opening brace => [if brace then 123 else 40]
| .closing brace => [if brace then 125 else 41]
| .comma => [44]

def isWhite : ArgToken → Bool
| .white => true
| _ => false

end ArgToken

/- The `def_` variables: the buffer, which grows as that of the
   expansions does, and offset and length of the arguments.
   Then `ma_parenthesis_level`. -/
structure ArgScan where
  def_buf : ExpBuf
  args : List (Nat × Nat)
  level : Nat

namespace ArgScan

/- `macro_start_args`.  There is no buffer of size 0. -/
def start (def_buf_size level : Nat) : Option ArgScan :=
  if def_buf_size = 0 then none
  else some ⟨⟨[0], def_buf_size, def_buf_size - 1⟩, [(0, 0)], level⟩

/- `macro_add_to_arg`.  The program ends if there are too many
   arguments. -/
def addToArg (s : ArgScan) (yytext : Bytes) : Option ArgScan :=
  if s.args.length = 256 then none
  else do
    let b ← s.def_buf.growToFit yytext.length (yytext.length + 2)
    let b ← b.copy yytext
    some { s with def_buf := b }

/- `macro_finish_arg`.  None for a zero past the buffer. -/
def finishArg (s : ArgScan) : Option ArgScan :=
  if s.args.length = 256 then none
  else do
    let (argo, argl) ← s.args.getLast?
    let offs := argo + argl + 1
    let tail := s.def_buf.size - s.def_buf.free
    let head := if offs < tail ∧ s.def_buf.bytes[offs]? = some 32 then offs + 1 else offs
    let tail' := if head < tail ∧ s.def_buf.bytes[tail - 1]? = some 32 then tail - 1 else tail
    let free := if tail' < tail then s.def_buf.free + 1 else s.def_buf.free
    if free = 0 then none
    else
      some { s with
        def_buf := ⟨s.def_buf.bytes.take tail' ++ [0], s.def_buf.size, free - 1⟩
        args := s.args ++ [(head, tail' - head)] }

/- The rules of `MA_ADD`; the last parenthesis ends the call. -/
def step (s : ArgScan) : ArgToken → Option ArgScan
| .opening brace =>
  (s.addToArg (ArgToken.opening brace).stored).map fun s => { s with level := s.level + 1 }
| .comma => if 0 < s.level then s.addToArg ArgToken.comma.stored else s.finishArg
| .closing brace =>
  if 0 < s.level then
    (s.addToArg (ArgToken.closing brace).stored).map fun s => { s with level := s.level - 1 }
  else s.finishArg
| t => s.addToArg t.stored

end ArgScan

----
-- Pieces
----

/- The level behind a token of a piece. -/
def nesting : Nat → ArgToken → Option Nat
| n, .opening _ => some (n + 1)
| n, .closing _ => if 0 < n then some (n - 1) else none
| n, .comma => if 0 < n then some n else none
| n, _ => some n

/- The text between commas at level 0, which is balanced. -/
abbrev ArgPiece := { p : List ArgToken // p.foldlM nesting 0 = some 0 }

/- The pieces with commas between them and the last
   parenthesis. -/
def callTokens (brace : Bool) (p : ArgPiece) : List ArgPiece → List ArgToken
| [] => p.1 ++ [.closing brace]
| q :: ps => p.1 ++ .comma :: callTokens brace q ps

/- A call is read from level 0 on. -/
def scanCall (def_buf_size : Nat) (tokens : List ArgToken) : Option ArgScan :=
  (ArgScan.start def_buf_size 0).bind fun s => tokens.foldlM ArgScan.step s

namespace ArgToken

/- What is stored of tokens. -/
def text (p : List ArgToken) : Bytes := p.flatMap stored

@[simp] theorem text_nil : text [] = [] := rfl

@[simp] theorem text_cons (t : ArgToken) (p : List ArgToken) :
    text (t :: p) = t.stored ++ text p := rfl

theorem text_append (p q : List ArgToken) : text (p ++ q) = text p ++ text q :=
  List.flatMap_append

/- The text of tokens, with each run of white space as one
   blank. -/
def render : List ArgToken → Bytes
| .white :: .white :: p => render (.white :: p)
| t :: p => t.stored ++ render p
| [] => []

/- Tokens without white space at the ends. -/
def strip (p : List ArgToken) : List ArgToken :=
  (p.dropWhile isWhite).rdropWhile isWhite

end ArgToken

open ArgToken

/- The words stand in the bytes one behind the other, each with
   a zero. -/
def Laid (bytes : Bytes) : Nat → List (Nat × Nat) → List Bytes → Prop
| _, [], [] => True
| start, (argo, argl) :: args, w :: ws =>
  start ≤ argo ∧ argl = w.length ∧ (bytes.drop argo).take (argl + 1) = w ++ [0] ∧
    Laid bytes (argo + argl + 1) args ws
| _, _, _ => False

/- The pieces are the arguments behind the empty one, inside
   the buffer, and the level is 0 again. -/
def SplitRight (s : ArgScan) (pieces : List ArgPiece) : Prop :=
  s.level = 0 ∧ s.def_buf.bytes.length ≤ s.def_buf.size ∧
    Laid s.def_buf.bytes 1 s.args.tail (pieces.map fun p => render (strip p.1))

----
-- Room
----

/- The size of a buffer that has grown for some bytes and the
   zero behind them. -/
def grown (size used : Nat) : Nat :=
  if used < size then size else size + 256 * ((used - size) / 256 + 1)

theorem lt_grown (size used : Nat) : used < grown size used := by
  unfold grown
  split_ifs <;> omega

theorem grown_grown {a b : Nat} (size : Nat) (h : a ≤ b) :
    grown (grown size a) b = grown size b := by
  unfold grown
  split_ifs <;> omega

/- A buffer with these bytes in use. -/
def ExpBuf.of (bytes : Bytes) (size : Nat) : ExpBuf := ⟨bytes, size, size - bytes.length⟩

theorem growToFit_of {bytes : Bytes} {length size fuel : Nat} (hSize : bytes.length ≤ size)
    (hFuel : length + bytes.length + 2 ≤ size + fuel) (hSome : 0 < fuel) :
    (ExpBuf.of bytes size).growToFit length fuel =
      some (ExpBuf.of bytes (grown size (bytes.length + length))) := by
  induction fuel generalizing size with
  | zero => exact absurd hSome (Nat.lt_irrefl 0)
  | succ fuel ih =>
    rw [ExpBuf.growToFit]
    by_cases hFree : (ExpBuf.of bytes size).free ≤ length
    · rw [if_pos hFree]
      have hLess : size - bytes.length ≤ length := hFree
      have hMore : (⟨bytes, size + 256, size - bytes.length + 256⟩ : ExpBuf) =
          .of bytes (size + 256) := by
        rw [ExpBuf.of, Nat.sub_add_comm hSize]
      have hGrown : grown (size + 256) (bytes.length + length) =
          grown size (bytes.length + length) := by
        unfold grown
        split_ifs <;> omega
      rw [← hGrown]
      exact hMore ▸ ih (by omega) (by omega) (by omega)
    · have hMuch : ¬size - bytes.length ≤ length := hFree
      rw [if_neg hFree, grown, if_pos (by omega)]

namespace ArgScan

variable {bytes : Bytes} {size level m : Nat} {args : List (Nat × Nat)}

theorem addToArg_of (hArgs : args.length < 256) (hSize : bytes.length ≤ size) (text : Bytes) :
    addToArg ⟨.of bytes size, args, level⟩ text =
      some ⟨.of (bytes ++ text) (grown size (bytes.length + text.length)), args, level⟩ := by
  have hLt := lt_grown size (bytes.length + text.length)
  have hGrow : (ExpBuf.of bytes size).growToFit text.length (text.length + 2) =
      some (ExpBuf.of bytes (grown size (bytes.length + text.length))) :=
    growToFit_of hSize (by omega) (by omega)
  have hCopy : (ExpBuf.of bytes (grown size (bytes.length + text.length))).copy text =
      some (.of (bytes ++ text) (grown size (bytes.length + text.length))) := by
    generalize grown size (bytes.length + text.length) = more at *
    have hUsed : more - (more - bytes.length) = bytes.length := by omega
    simp only [ExpBuf.copy, ExpBuf.of, hUsed, List.take_length, length_append, Nat.sub_sub]
    exact if_pos (by omega)
  rw [addToArg, if_neg (Nat.ne_of_lt hArgs)]
  simp only [hGrow, hCopy, Option.bind_eq_bind, Option.bind_some]

theorem addToArg_level (f : Nat → Nat) (b : ExpBuf) (text : Bytes) :
    (addToArg ⟨b, args, level⟩ text).map (fun s => { s with level := f s.level }) =
      addToArg ⟨b, args, f level⟩ text := by
  unfold addToArg
  split_ifs
  · rfl
  · simp

/- A token of a piece is stored. -/
theorem step_piece {b : ExpBuf} {t : ArgToken} (hNest : nesting level t = some m) :
    step ⟨b, args, level⟩ t = addToArg ⟨b, args, m⟩ t.stored := by
  cases t with
  | word l => cases hNest; rfl
  | white => cases hNest; rfl
  | opening brace =>
    cases hNest
    exact addToArg_level (· + 1) b _
  | closing brace =>
    rw [nesting] at hNest
    split_ifs at hNest with hInner
    cases hNest
    exact (if_pos hInner).trans (addToArg_level (· - 1) b _)
  | comma =>
    rw [nesting] at hNest
    split_ifs at hNest with hInner
    cases hNest
    exact if_pos hInner

/- The size behind a piece. -/
def pieceSize (size used : Nat) (p : List ArgToken) : Nat :=
  if p = [] then size else grown size (used + (text p).length)

theorem steps_piece {p : List ArgToken} (hNest : p.foldlM nesting level = some m)
    (hArgs : args.length < 256) (hSize : bytes.length ≤ size) :
    p.foldlM step ⟨.of bytes size, args, level⟩ =
      some ⟨.of (bytes ++ text p) (pieceSize size bytes.length p), args, m⟩ := by
  induction p generalizing bytes size level with
  | nil =>
    cases hNest
    simp [pieceSize]
  | cons t p ih =>
    rw [List.foldlM_cons] at hNest ⊢
    rcases Option.bind_eq_some_iff.mp hNest with ⟨n, hHead, hTail⟩
    have hLt := lt_grown size (bytes.length + t.stored.length)
    rw [step_piece hHead, addToArg_of hArgs hSize]
    have hGrown : (bytes ++ t.stored).length ≤ grown size (bytes.length + t.stored.length) := by
      rw [length_append]
      omega
    have hRest := ih hTail hGrown
    simp only [Option.bind_eq_bind, Option.bind_some, hRest, append_assoc]
    congr 3
    rw [pieceSize, pieceSize, if_neg (cons_ne_nil _ _), length_append, text_cons, length_append]
    split_ifs with hEnd
    · rw [hEnd]
      simp
    · rw [grown_grown _ (by omega)]
      congr 1
      omega

/- With all arguments taken, no token is. -/
theorem steps_full {p : List ArgToken} {b : ExpBuf} {f : ArgScan → Option ArgScan}
    (hNest : p.foldlM nesting level = some m) (hArgs : args.length = 256)
    (hEnd : f ⟨b, args, level⟩ = none) : (p.foldlM step ⟨b, args, level⟩).bind f = none := by
  cases p with
  | nil => exact hEnd
  | cons t p =>
    rw [List.foldlM_cons] at hNest ⊢
    rcases Option.bind_eq_some_iff.mp hNest with ⟨n, hHead, -⟩
    rw [step_piece hHead, addToArg, if_pos hArgs]
    rfl

end ArgScan

----
-- Blanks At The Ends
----

namespace ArgToken

/- The white token in front that is taken off. -/
def lead : List ArgToken → List ArgToken
| .white :: _ => [.white]
| _ => []

/- The tokens without one white token at each end. -/
def trimOne (p : List ArgToken) : List ArgToken :=
  let q := p.drop (lead p).length
  if q.getLast?.any isWhite then q.dropLast else q

theorem stored_ne_nil (t : ArgToken) : t.stored ≠ [] := by
  cases t with
  | word l => exact l.nonempty
  | _ => exact cons_ne_nil _ _

theorem stored_ends (t : ArgToken) :
    (t.stored.head? = some 32 ↔ t.isWhite) ∧ (t.stored.getLast? = some 32 ↔ t.isWhite) := by
  cases t with
  | word l => exact ⟨iff_of_false l.head Bool.false_ne_true, iff_of_false l.last Bool.false_ne_true⟩
  | opening brace => cases brace <;> decide
  | closing brace => cases brace <;> decide
  | _ => decide

theorem text_head (p : List ArgToken) : (text p)[0]? = some 32 ↔ lead p = [.white] := by
  cases p with
  | nil => simp [lead]
  | cons t p =>
    have hSome := stored_ne_nil t
    rw [text_cons, List.getElem?_append_left (List.length_pos_of_ne_nil hSome),
      ← List.head?_eq_getElem?, (stored_ends t).1]
    cases t <;> simp [isWhite, lead]

theorem text_last (p : List ArgToken) : (text p).getLast? = some 32 ↔ p.getLast?.any isWhite := by
  rcases List.eq_nil_or_concat p with rfl | ⟨q, t, rfl⟩
  · simp
  · have hSome := stored_ne_nil t
    rw [List.concat_eq_append, text_append, text_cons, text_nil, append_nil,
      List.getLast?_append_of_ne_nil _ hSome, (stored_ends t).2]
    simp

theorem lead_cases (p : List ArgToken) : lead p = [] ∨ lead p = [.white] := by
  unfold lead
  split
  · exact .inr rfl
  · exact .inl rfl

theorem lead_append (p : List ArgToken) : lead p ++ p.drop (lead p).length = p := by
  unfold lead
  split <;> rfl

/- What is taken off at the end. -/
theorem trimOne_append (p : List ArgToken) :
    p.drop (lead p).length = trimOne p ++
      if (p.drop (lead p).length).getLast?.any isWhite then [.white] else [] := by
  unfold trimOne
  rcases List.eq_nil_or_concat (p.drop (lead p).length) with hNil | ⟨q, t, hConcat⟩
  · rw [hNil]
    rfl
  · rw [hConcat]
    cases t <;> simp [isWhite]

end ArgToken

namespace ArgScan

variable {front bytes : Bytes} {size level argo argl : Nat} {args : List (Nat × Nat)}
  {p : List ArgToken}

/- An argument is taken from its first to its last byte. -/
theorem finishArg_of (hArgs : args.length < 256) (hLast : args.getLast? = some (argo, argl))
    (hFront : argo + argl + 1 = front.length) (hRoom : (front ++ text p).length < size) :
    finishArg ⟨.of (front ++ text p) size, args, level⟩ =
      some ⟨.of (front ++ text (lead p) ++ text (trimOne p) ++ [0]) size,
        args ++ [(front.length + (lead p).length, (text (trimOne p)).length)], level⟩ := by
  have hLead : (text (lead p)).length = (lead p).length := by
    rcases lead_cases p with h | h <;> rw [h] <;> rfl
  have hFirst : (front.length < (front ++ text p).length ∧
      (front ++ text p)[front.length]? = some 32) ↔ lead p = [.white] := by
    rw [List.getElem?_append_right (Nat.le_refl _), Nat.sub_self, text_head, and_iff_right_iff_imp]
    intro hWhite
    rw [← lead_append p, hWhite]
    simp [stored]
  have hHead : (if front.length < (front ++ text p).length ∧
      (front ++ text p)[front.length]? = some 32 then front.length + 1
      else front.length) = front.length + (lead p).length := by
    rcases lead_cases p with h | h
    · grind
    · rw [if_pos (hFirst.mpr h), h]
      rfl
  have hParts := congrArg text (lead_append p)
  rw [text_append] at hParts
  have hRest := congrArg text (trimOne_append p)
  rw [text_append] at hRest
  have hEnd : (front.length + (lead p).length < (front ++ text p).length ∧
      (front ++ text p)[(front ++ text p).length - 1]? = some 32) ↔
      (p.drop (lead p).length).getLast?.any isWhite := by
    rw [← text_last, ← List.getLast?_eq_getElem?, ← hParts,
      length_append, length_append, hLead]
    rcases List.eq_nil_or_concat (text (p.drop (lead p).length)) with hNil | ⟨s, c, hConcat⟩
    · simp [hNil]
    · rw [hConcat]
      simp
  have hTail : size - (size - (front ++ text p).length) =
      (front ++ text p).length := by omega
  have hTaken : front ++ text p = front ++ text (lead p) ++
      text (trimOne p) ++ (if (p.drop (lead p).length).getLast?.any isWhite then [32]
        else []) := by
    rw [← hParts, hRest]
    split_ifs <;> simp [stored]
  have hAll := congrArg List.length hTaken
  simp only [length_append] at hAll
  unfold finishArg
  rw [if_neg (Nat.ne_of_lt hArgs)]
  simp only [hLast, Option.bind_eq_bind, Option.bind_some, hFront, ExpBuf.of, hTail, hHead, hEnd]
  have hKept : (front ++ text (lead p) ++ text (trimOne p)).length =
      front.length + (lead p).length + (text (trimOne p)).length := by
    simp only [length_append, hLead]
  generalize front ++ text (lead p) ++ text (trimOne p) = kept at *
  have hTail' : (if (p.drop (lead p).length).getLast?.any isWhite = true then
      (front ++ text p).length - 1 else (front ++ text p).length) = kept.length := by
    rw [length_append]
    split_ifs at hAll ⊢ <;> simp only [length_singleton, length_nil] at hAll <;> omega
  have hFree : (if kept.length < (front ++ text p).length then
      size - (front ++ text p).length + 1 else size - (front ++ text p).length) =
      size - kept.length := by grind
  have hLess : kept.length < size := by
    rw [length_append] at hRoom
    omega
  simp only [hTail', hFree]
  rw [if_neg (by omega), hTaken, List.take_left]
  have hLength : kept.length - (front.length + (lead p).length) = (text (trimOne p)).length := by
    omega
  have hLeft : size - kept.length - 1 = size - (kept ++ [0]).length := by
    rw [length_append, length_singleton]
    omega
  rw [hLength, hLeft]

theorem finishArg_full (hLast : args.getLast? = some (argo, argl))
    (hFront : argo + argl + 1 = bytes.length) (hSize : bytes.length = size) :
    finishArg ⟨.of bytes size, args, level⟩ = none := by
  unfold finishArg
  split_ifs
  · rfl
  · simp [hLast, hFront, ExpBuf.of, hSize]

----
-- Calls
----

/- What an argument takes of the buffer. -/
def placed (p : ArgPiece) : Bytes :=
  text (lead p.1) ++ text (trimOne p.1) ++ [0]

/- Where an argument stands that is read behind some bytes. -/
def place (used : Nat) (p : ArgPiece) : Nat × Nat :=
  (used + (lead p.1).length, (text (trimOne p.1)).length)

def places : Nat → List ArgPiece → List (Nat × Nat)
| _, [] => []
| used, p :: ps => place used p :: places (used + (placed p).length) ps

/- Every argument without a token finds a free byte. -/
def RoomFor : Nat → Nat → List ArgPiece → Prop
| _, _, [] => True
| size, used, p :: ps =>
  (p.1 = [] → used < size) ∧ RoomFor (pieceSize size used p.1) (used + (placed p).length) ps

theorem placed_length (p : ArgPiece) :
    (placed p).length = (lead p.1).length + (text (trimOne p.1)).length + 1 := by
  simp only [placed, length_append]
  rcases lead_cases p.1 with h | h <;> rw [h] <;> rfl

theorem placed_le (p : ArgPiece) : (placed p).length ≤ (text p.1).length + 1 := by
  have hParts := congrArg (fun q => (text q).length) (lead_append p.1)
  have hRest := congrArg (fun q => (text q).length) (trimOne_append p.1)
  simp only [text_append, length_append] at hParts hRest
  simp only [placed, length_append, length_singleton]
  omega

theorem lt_pieceSize {used : Nat} (p : List ArgToken) (hRoom : p = [] → used < size) :
    used + (text p).length < pieceSize size used p := by
  unfold pieceSize
  split_ifs with hNil
  · simpa [hNil] using hRoom hNil
  · exact lt_grown _ _

/- A piece and the token behind it. -/
theorem piece_end {t : ArgToken} (p : ArgPiece)
    (hEnd : ∀ b args, step ⟨b, args, 0⟩ t = finishArg ⟨b, args, 0⟩) (hArgs : args.length ≤ 256)
    (hLast : args.getLast? = some (argo, argl)) (hFront : argo + argl + 1 = bytes.length)
    (hSize : bytes.length ≤ size) :
    ((p.1.foldlM step ⟨.of bytes size, args, 0⟩).bind (step · t)) =
      if args.length < 256 ∧ (p.1 = [] → bytes.length < size) then
        some ⟨.of (bytes ++ placed p) (pieceSize size bytes.length p.1),
          args ++ [place bytes.length p], 0⟩
      else none := by
  by_cases hFew : args.length < 256
  · rw [steps_piece p.2 hFew hSize, Option.bind_some, hEnd]
    by_cases hRoom : p.1 = [] → bytes.length < size
    · have hLess := lt_pieceSize p.1 hRoom
      rw [← length_append] at hLess
      rw [if_pos ⟨hFew, hRoom⟩, finishArg_of hFew hLast hFront hLess]
      simp only [placed, place, append_assoc]
    · rw [if_neg (fun h => hRoom h.2)]
      rw [Classical.not_imp] at hRoom
      rw [hRoom.1]
      exact finishArg_full hLast (by simpa using hFront) (by simp [pieceSize]; omega)
  · have hFull : args.length = 256 := by omega
    rw [if_neg (fun h => hFew h.1)]
    refine steps_full p.2 hFull ?_
    rw [hEnd]
    exact if_pos hFull

/- A call is read to its end if the arguments find their places. -/
theorem call_run (brace : Bool) (p : ArgPiece) (ps : List ArgPiece) (hArgs : args.length ≤ 256)
    (hLast : args.getLast? = some (argo, argl)) (hFront : argo + argl + 1 = bytes.length)
    (hSize : bytes.length ≤ size) :
    (args.length + (ps.length + 1) ≤ 256 ∧ RoomFor size bytes.length (p :: ps) →
      ∃ size', (callTokens brace p ps).foldlM step ⟨.of bytes size, args, 0⟩ =
          some ⟨.of (bytes ++ (p :: ps).flatMap placed) size',
            args ++ places bytes.length (p :: ps), 0⟩ ∧
        (bytes ++ (p :: ps).flatMap placed).length ≤ size') ∧
    (¬(args.length + (ps.length + 1) ≤ 256 ∧ RoomFor size bytes.length (p :: ps)) →
      (callTokens brace p ps).foldlM step ⟨.of bytes size, args, 0⟩ = none) := by
  have hPlaced := placed_le p
  induction ps generalizing p bytes size args argo argl with
  | nil =>
    have hTokens : (callTokens brace p []).foldlM step ⟨.of bytes size, args, 0⟩ =
        (p.1.foldlM step ⟨.of bytes size, args, 0⟩).bind (step · (.closing brace)) := by
      simp [callTokens]
    rw [hTokens, piece_end p (fun _ _ => rfl) hArgs hLast hFront hSize]
    simp only [RoomFor, and_true, length_nil, List.flatMap_cons, List.flatMap_nil,
      append_nil]
    constructor
    · rintro ⟨hFew, hRoom⟩
      have hLess := lt_pieceSize p.1 hRoom
      rw [if_pos ⟨by omega, hRoom⟩]
      exact ⟨_, rfl, by rw [length_append]; omega⟩
    · grind
  | cons q ps ih =>
    have hTokens : (callTokens brace p (q :: ps)).foldlM step ⟨.of bytes size, args, 0⟩ =
        ((p.1.foldlM step ⟨.of bytes size, args, 0⟩).bind (step · .comma)).bind
          (fun s => (callTokens brace q ps).foldlM step s) := by
      simp [callTokens, Option.bind_assoc]
    rw [hTokens, piece_end p (fun _ _ => rfl) hArgs hLast hFront hSize]
    by_cases hHere : args.length < 256 ∧ (p.1 = [] → bytes.length < size)
    · have hLess := lt_pieceSize p.1 hHere.2
      have hArgs' : (args ++ [place bytes.length p]).length ≤ 256 := by
        rw [length_append]
        exact hHere.1
      have hFront' : (place bytes.length p).1 + (place bytes.length p).2 + 1 =
          (bytes ++ placed p).length := by
        rw [length_append, placed_length, place]
        omega
      have hSize' : (bytes ++ placed p).length ≤ pieceSize size bytes.length p.1 := by
        rw [length_append]
        omega
      have hNext := ih q hArgs' List.getLast?_concat hFront' hSize' (placed_le q)
      have hCount : (args ++ [place bytes.length p]).length = args.length + 1 := length_append
      have hUsed : (bytes ++ placed p).length = bytes.length + (placed p).length := length_append
      have hAll : (p :: q :: ps).flatMap placed = placed p ++ (q :: ps).flatMap placed := rfl
      rw [hUsed, append_assoc, append_assoc] at hNext
      rw [if_pos hHere]
      constructor
      · rintro ⟨hFew, -, hRoom⟩
        exact hNext.1 ⟨by rw [List.length_cons] at hFew; omega, hRoom⟩
      · intro hNot
        exact hNext.2 (fun h => hNot ⟨by rw [List.length_cons]; omega, hHere.2, h.2⟩)
    · rw [if_neg hHere]
      exact ⟨fun h => absurd ⟨by omega, h.2.1⟩ hHere, fun _ => rfl⟩

end ArgScan

----
-- Right Words
----

namespace ArgToken

/- No two white tokens are next to each other. -/
def Apart (p : List ArgToken) : Prop :=
  p.IsChain fun t u => ¬(t.isWhite = true ∧ u.isWhite = true)

/- After one white token at each end, no other is left there,
   and no two are next to each other. -/
def Single (p : List ArgToken) : Prop :=
  strip (trimOne p) = trimOne p ∧ Apart (trimOne p)

theorem chain_cons {t : ArgToken} {p : List ArgToken}
    (hNot : ∀ q, t = .white → p = .white :: q → False) (h : Apart p) : Apart (t :: p) := by
  cases p with
  | nil => exact List.IsChain.singleton t
  | cons u p =>
    refine List.isChain_cons_cons.mpr ⟨fun hBoth => ?_, h⟩
    cases t <;> cases u <;> first | exact hNot p rfl rfl | simp [isWhite] at hBoth

/- Runs are single white tokens, or the text gets shorter. -/
theorem render_length (p : List ArgToken) :
    (render p).length ≤ (text p).length ∧
    ((render p).length = (text p).length → Apart p) := by
  induction p using render.induct with
  | case1 p ih =>
    have hOne : stored white = [32] := rfl
    rw [render, text_cons, length_append, hOne, length_singleton]
    exact ⟨by omega, fun h => by omega⟩
  | case2 t p hNot ih =>
    rw [render, text_cons, length_append, length_append]
    · exact ⟨Nat.add_le_add_left ih.1 _, fun h => chain_cons hNot (ih.2 (Nat.add_left_cancel h))⟩
    · exact hNot
  | case3 => exact ⟨Nat.le_refl _, fun _ => List.IsChain.nil⟩

theorem render_of_chain {p : List ArgToken} (h : Apart p) : render p = text p := by
  induction p using render.induct with
  | case1 p ih => exact absurd ⟨rfl, rfl⟩ (List.isChain_cons_cons.mp h).1
  | case2 t p hNot ih =>
    rw [render, text_cons, ih h.of_cons]
    exact hNot
  | case3 => rfl

/- White tokens at the ends do not count for the words. -/
theorem strip_trimOne (p : List ArgToken) : strip (trimOne p) = strip p := by
  have hDrop : (p.drop (lead p).length).dropWhile isWhite = p.dropWhile isWhite := by
    unfold lead
    split <;> rfl
  have hRest := trimOne_append p
  unfold strip
  rw [← hDrop, hRest]
  split_ifs
  · rw [List.dropWhile_append]
    split_ifs with hNil
    · rw [List.isEmpty_iff.mp hNil]
      rfl
    · rw [List.rdropWhile_concat_pos _ _ _ rfl]
  · rw [append_nil]

/- The text without blanks at the ends is that of the words if
   no blank is left too much. -/
theorem words_iff (p : List ArgToken) : text (trimOne p) = render (strip p) ↔ Single p := by
  rw [← strip_trimOne p]
  constructor
  · intro h
    rcases List.dropWhile_suffix isWhite (l := trimOne p) with ⟨front, hFront⟩
    rcases List.rdropWhile_prefix isWhite ((trimOne p).dropWhile isWhite) with ⟨back, hBack⟩
    have hParts : trimOne p = front ++ (strip (trimOne p) ++ back) := by rw [strip, hBack, hFront]
    have hLength := congrArg (fun q => (text q).length) hParts
    simp only [text_append, length_append, h] at hLength
    have hLess := render_length (strip (trimOne p))
    have hEmpty : ∀ q : List ArgToken, (text q).length = 0 → q = [] := by
      intro q hq
      cases q with
      | nil => rfl
      | cons t q =>
        have hSome := List.length_pos_of_ne_nil (stored_ne_nil t)
        rw [text_cons, length_append] at hq
        omega
    have hSame : strip (trimOne p) = trimOne p := by grind
    refine ⟨hSame, hSame ▸ hLess.2 ?_⟩
    rw [← h, hSame]
  · rintro ⟨hSame, hChain⟩
    rw [hSame, render_of_chain hChain]

end ArgToken

open ArgScan

/- The words that stand where the arguments are placed. -/
theorem laid_iff {front back : Bytes} (ps : List ArgPiece) (ws : List Bytes) :
    Laid (front ++ (ps.flatMap placed ++ back)) front.length (places front.length ps) ws ↔
      ps.map (fun p => text (trimOne p.1)) = ws := by
  induction ps generalizing front ws with
  | nil => cases ws <;> simp [Laid, places]
  | cons p ps ih =>
    cases ws with
    | nil => simp [Laid, places]
    | cons w ws =>
      have hIh := @ih (front ++ placed p) ws
      have hBytes : front ++ placed p ++ (ps.flatMap placed ++ back) =
          front ++ ((p :: ps).flatMap placed ++ back) := by
        simp
      have hUsed : (front ++ placed p).length = front.length + (placed p).length := length_append
      have hNext : front.length + (lead p.1).length + (text (trimOne p.1)).length + 1 =
          front.length + (placed p).length := by
        rw [placed_length]
        omega
      rw [hBytes, hUsed] at hIh
      have hLead : front.length + (lead p.1).length = (front ++ text (lead p.1)).length := by
        rw [length_append]
        rcases lead_cases p.1 with h | h <;> rw [h] <;> rfl
      have hHere : ((front ++ ((p :: ps).flatMap placed ++ back)).drop
          (front.length + (lead p.1).length)).take ((text (trimOne p.1)).length + 1) =
          text (trimOne p.1) ++ [0] := by
        have hSplit : front ++ ((p :: ps).flatMap placed ++ back) =
            front ++ text (lead p.1) ++
              (text (trimOne p.1) ++ [0] ++ (ps.flatMap placed ++ back)) := by
          simp [placed]
        rw [hSplit, hLead, List.drop_left]
        exact List.take_left' (by simp)
      simp only [places, place, Laid, hHere, hNext, hIh, List.append_cancel_right_eq,
        List.map_cons, List.cons.injEq]
      grind

/- A blank and a new line between two letters. -/
def spacedPiece : ArgPiece :=
  ⟨[.word ⟨[97], by decide, by decide, by decide, by decide⟩, .white, .white,
    .word ⟨[98], by decide, by decide, by decide, by decide⟩], rfl⟩

end EpicSim
