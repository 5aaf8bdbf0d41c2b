import EpicSim.Ivl.VerinumString
import EpicSim.Vvp.SetVec
import EpicSim.Vvp.Subarray

/-
  Literals in the generated code.

  A literal is pushed in pieces of at most 32 bits that are not
  zero.  The bytes of a string are taken as signed characters,
  so that one from 128 on sets all bits above it in its piece.
-/

namespace EpicSim

open List (map_congr_left mem_range length_map length_range range_add map_append map_map
  length_pos_iff length_append append_nil singleton_append append_assoc length_cons flatMap_cons)
open BitVec (ofFin getLsbD_or getLsbD_zero getLsbD_setWidth)
open PackedWords VvpVector4

----
-- Code Generation
----

/- An instruction; the printed operands are `unsigned long`. -/
inductive Vec4Op where
| pushi (vala valb : BitVec 64) (wid : Nat)
| concati (vala valb : BitVec 64) (wid : Nat)
| concat
deriving DecidableEq

/- `%pushi/vec4`, or `%concati/vec4` once there is a vector. -/
def immediateOp (count_pushi : Nat) (val0 valx : BitVec 64) (accum : Nat) : Vec4Op :=
  if count_pushi = 0 then .pushi val0 valx accum
  else .concati val0 valx accum

/- The mask of a bit of the literal. -/
def literalMask (on : Bool) : BitVec 64 :=
  if on then 1#64 else 0#64

/- The loop of `draw_concat_number_vec4`: `0`, `1`, `x` and `z`
   set the masks as their abits and bbits. -/
def drawNumberLoop : List VvpBit4 → BitVec 64 → BitVec 64 → Nat → Nat → List Vec4Op
| [], val0, valx, accum, count_pushi =>
  if accum = 0 then [] else [immediateOp count_pushi val0 valx accum]
| bit :: bits, val0, valx, accum, count_pushi =>
  let val0 := val0 <<< 1 ||| literalMask bit.abit
  let valx := valx <<< 1 ||| literalMask bit.bbit
  if (val0 ||| valx).getLsbD 31 then
    immediateOp count_pushi val0 valx (accum + 1) ::
      drawNumberLoop bits 0#64 0#64 0 (count_pushi + 1)
  else drawNumberLoop bits val0 valx (accum + 1) count_pushi

/- `draw_concat_number_vec4`, of bits from the lowest on. -/
def drawConcatNumberVec4 (bits : List VvpBit4) (as_concati : Bool) : List Vec4Op :=
  drawNumberLoop bits.reverse 0#64 0#64 0 (if as_concati then 1 else 0)

/- The loop of `process_octal_codes`; none reads past the end of
   the text. -/
def octalLoop : ByteString → Option ByteString
| [] => some []
| c :: str =>
  if c = 92 then
    match str with
    | c₁ :: c₂ :: c₃ :: str =>
      (octalLoop str).map (((c₁ - 48) * 64 + (c₂ - 48) * 8 + (c₃ - 48)) :: ·)
    | _ => none
  else (octalLoop str).map (c :: ·)

/- `process_octal_codes` -/
def processOctalCodes (str : ByteString) (width : Nat) : Option ByteString :=
  if width / 8 = str.length then some str else octalLoop str

/- `(unsigned long)*p`, of a signed `char`. -/
def charLong (c : Fin 256) : BitVec 64 :=
  (ofFin (w := 8) c).signExtend 64

/- The push of a piece, and the concatenation after the first. -/
def pieceOps (push_flag : Nat) (tmp : BitVec 64) (tmp_wid : Nat) : List Vec4Op :=
  .pushi tmp 0#64 tmp_wid :: if push_flag = 0 then [] else [.concat]

/- The loop of `draw_string_vec4`. -/
def drawStringLoop : ByteString → BitVec 64 → Nat → Nat → List Vec4Op
| [], tmp, tmp_wid, push_flag => if tmp_wid = 0 then [] else pieceOps push_flag tmp tmp_wid
| c :: str, tmp, tmp_wid, push_flag =>
  let tmp := tmp <<< 8 ||| charLong c
  if tmp_wid + 8 = 32 then
    pieceOps push_flag tmp 32 ++ drawStringLoop str 0#64 0 1
  else drawStringLoop str tmp (tmp_wid + 8) push_flag

/- `draw_string_vec4`, with the text of the expression; none
   reads past the zero that ends the text. -/
def drawStringVec4 (text : ByteString) (wid : Nat) : Option (List Vec4Op) := do
  let fp ← processOctalCodes text wid
  let len := (wid + 7) / 8
  if fp.length + 1 < len then none
  else some (drawStringLoop ((fp ++ [0]).take len) 0#64 0 0)

----
-- Execution
----

/- The bit that both masks end with; zeros are there already. -/
def immediateBit (vala valb : BitVec 32) (val : VvpVector4) (idx : Nat) : VvpVector4 :=
  match valb.getLsbD 0, vala.getLsbD 0 with
  | false, false => val
  | false, true => val.setBit idx .one
  | true, false => val.setBit idx .z
  | true, true => val.setBit idx .x

/- The loop over the bits of an immediate value. -/
def immediateLoop : Nat → Nat → BitVec 32 → BitVec 32 → VvpVector4 → VvpVector4
| 0, _, _, _, val => val
| n + 1, idx, vala, valb, val =>
  if vala ||| valb = 0#32 then val
  else
    immediateLoop n (idx + 1) (vala >>> 1) (valb >>> 1) (immediateBit vala valb val idx)

/- The value of `of_PUSHI_VEC4`. -/
def pushiValue (vala valb : BitVec 32) (wid : Nat) : Option VvpVector4 :=
  let val := fill wid .zero
  if vala = 0#32 ∧ valb = 0#32 then some val
  else if valb = 0#32 ∧ wid ≤ 64 then
    val.setarray 0 wid [vala.setWidth 64]
  else some (immediateLoop wid 0 vala valb val)

/- The vector that the concatenations build. -/
def concatVec (msb lsb : VvpVector4) : Option VvpVector4 := do
  let low ← (fill (msb.size_ + lsb.size_) .x).setVec 0 lsb
  let res ← low.1.setVec lsb.size_ msb
  some res.1

namespace Vec4Op

/- One instruction, with operands of 32 bits. -/
def step : Vec4Op → List VvpVector4 → Option (List VvpVector4)
| pushi vala valb wid, stack => do
    let val ← pushiValue (vala.setWidth 32) (valb.setWidth 32) wid
    some (val :: stack)
| concati vala valb wid, msb :: stack => do
    let lsb := immediateLoop wid 0 (vala.setWidth 32) (valb.setWidth 32)
      (fill wid .zero)
    let res ← concatVec msb lsb
    some (res :: stack)
| concat, lsb :: msb :: stack => do
    let res ← concatVec msb lsb
    some (res :: stack)
| _, _ => none

def run : List Vec4Op → List VvpVector4 → Option (List VvpVector4)
| [], stack => some stack
| op :: code, stack => (op.step stack).bind (run code)

end Vec4Op

open Vec4Op

/- The bits of a vector, from the lowest on. -/
def VvpVector4.bits (v : VvpVector4) : List VvpBit4 :=
  (List.range v.size_).map v.value

----
-- Vectors
----

theorem bits_eq {v : VvpVector4} {n : Nat} {f : Nat → VvpBit4} (hSize : v.size_ = n)
    (hBits : ∀ i < n, v.value i = f i) : v.bits = (List.range n).map f := by
  rw [bits, hSize]
  apply map_congr_left
  exact fun i hMem => hBits i (mem_range.mp hMem)

theorem length_bits (v : VvpVector4) : v.bits.length = v.size_ := by
  rw [bits, length_map, length_range]

/- The bit of an immediate value. -/
def maskBit (vala valb : BitVec 32) (i : Nat) : VvpBit4 :=
  VvpBit4.ofBits (valb.getLsbD i) (vala.getLsbD i)

theorem immediateBit_spec {vala valb : BitVec 32} {val : VvpVector4} {idx : Nat}
    (hIdx : idx < val.size_) (hZero : val.value idx = .zero) :
    (immediateBit vala valb val idx).size_ = val.size_ ∧
      ∀ j < val.size_, (immediateBit vala valb val idx).value j =
        if j = idx then maskBit vala valb 0 else val.value j := by
  unfold immediateBit maskBit
  cases valb.getLsbD 0 with
  | false =>
    cases vala.getLsbD 0 with
    | false =>
      refine ⟨rfl, fun j _ => ?_⟩
      split_ifs with hSame
      · rw [hSame, hZero]
        rfl
      · rfl
    | true => exact ⟨rfl, fun j hJ => value_setBit hIdx .one hJ⟩
  | true =>
    cases vala.getLsbD 0 with
    | false => exact ⟨rfl, fun j hJ => value_setBit hIdx .z hJ⟩
    | true => exact ⟨rfl, fun j hJ => value_setBit hIdx .x hJ⟩

theorem immediateLoop_spec {n idx : Nat} {vala valb : BitVec 32} {val : VvpVector4}
    (hSize : val.size_ = idx + n) (hZero : ∀ j, idx ≤ j → j < val.size_ → val.value j = .zero) :
    (immediateLoop n idx vala valb val).size_ = val.size_ ∧
      ∀ j < val.size_, (immediateLoop n idx vala valb val).value j =
        if j < idx then val.value j else maskBit vala valb (j - idx) := by
  induction n generalizing idx vala valb val with
  | zero => exact ⟨rfl, fun j hJ => (if_pos (by omega)).symm⟩
  | succ n ih =>
    rw [immediateLoop]
    by_cases hNone : vala ||| valb = 0#32
    · rw [if_pos hNone]
      refine ⟨rfl, fun j hJ => ?_⟩
      split_ifs with hLow
      · rfl
      · have hBit := congrArg (fun m => m.getLsbD (j - idx)) hNone
        simp only [getLsbD_or, getLsbD_zero, Bool.or_eq_false_iff] at hBit
        rw [hZero j (by omega) hJ, maskBit, hBit.1, hBit.2]
        rfl
    · rw [if_neg hNone]
      rcases @immediateBit_spec vala valb val idx (by omega)
        (hZero idx (le_refl _) (by omega)) with ⟨hSame, hBits⟩
      rcases @ih (idx + 1) (vala >>> 1) (valb >>> 1)
        (immediateBit vala valb val idx) (by omega) (by
          intro j hLow hJ
          rw [hBits j (by omega), if_neg (by omega)]
          exact hZero j (by omega) (by omega)) with ⟨hEnd, hRest⟩
      refine ⟨hEnd.trans hSame, fun j hJ => ?_⟩
      rw [hRest j (by omega), hBits j hJ]
      rcases Nat.lt_trichotomy j idx with hLess | hEq | hMore
      · rw [if_pos (by omega), if_neg (by omega), if_pos hLess]
      · rw [if_pos (by omega), if_pos hEq, if_neg (by omega), hEq, Nat.sub_self]
      · rw [if_neg (by omega), if_neg (by omega), maskBit, maskBit, BitVec.getLsbD_ushiftRight,
          BitVec.getLsbD_ushiftRight, show 1 + (j - (idx + 1)) = j - idx by omega]

theorem bits_immediateLoop (wid : Nat) (vala valb : BitVec 32) :
    (immediateLoop wid 0 vala valb (fill wid .zero)).bits =
      (List.range wid).map (maskBit vala valb) := by
  rcases @immediateLoop_spec wid 0 vala valb (fill wid .zero)
    (Nat.zero_add wid).symm (fun j _ hJ => value_fill hJ .zero) with
    ⟨hSize, hBits⟩
  exact bits_eq hSize fun i hI => (hBits i hI).trans (if_neg (by omega))

theorem pushiValue_spec {wid : Nat} (hWid : 0 < wid) (vala valb : BitVec 32) :
    ∃ v, pushiValue vala valb wid = some v ∧
      v.bits = (List.range wid).map (maskBit vala valb) := by
  unfold pushiValue
  by_cases hZero : vala = 0#32 ∧ valb = 0#32
  · refine ⟨_, if_pos hZero, bits_eq rfl fun i hI => ?_⟩
    rw [value_fill hI, maskBit, hZero.1, hZero.2, getLsbD_zero]
    rfl
  · rw [if_neg hZero]
    by_cases hShort : valb = 0#32 ∧ wid ≤ 64
    · have hPut := @setarrayWords_spec wid 0 wid [vala.setWidth 64]
        (fill wid .zero).abits (fill wid .zero).bbits
        (fill wid .zero).abits_length (fill wid .zero).bbits_length
        hWid (by omega)
      refine ⟨_, (if_pos hShort).trans (if_pos (by
        exact Nat.le_of_eq (Nat.zero_add wid))),
        bits_eq rfl fun i hI => ?_⟩
      rw [value_of_lt (by exact hI)]
      dsimp only
      have hIn : 0 ≤ i ∧ i < 0 + wid := by omega
      rw [show (fill wid .zero).size_ = wid from rfl, hPut.abit, hPut.bbit, if_pos hIn,
        if_pos hIn, maskBit, hShort.1, getLsbD_zero, bitAt, wordAt, Nat.sub_zero,
        Nat.div_eq_of_lt (by omega), Nat.mod_eq_of_lt (by omega), List.getD_cons_zero,
        getLsbD_setWidth, decide_eq_true (by omega), Bool.true_and]
    · exact ⟨_, if_neg hShort, bits_immediateLoop wid vala valb⟩

theorem concatVec_spec {msb lsb : VvpVector4} (hMsb : 0 < msb.size_) (hLsb : 0 < lsb.size_) :
    ∃ res, concatVec msb lsb = some res ∧
      res.bits = lsb.bits ++ msb.bits := by
  rcases @setVec_spec (fill (msb.size_ + lsb.size_) .x) lsb 0 hLsb
    (show 0 + lsb.size_ ≤ msb.size_ + lsb.size_ by omega) with
    ⟨low, flag, hLow, hSize, hLowBits, -⟩
  have hTotal : low.size_ = msb.size_ + lsb.size_ := hSize
  rcases @setVec_spec low msb lsb.size_ hMsb (by omega) with ⟨res, flag', hRes, hSize', hBits, -⟩
  refine ⟨res, ?_, ?_⟩
  · unfold concatVec
    rw [hLow, Option.bind_eq_bind, Option.bind_some, hRes]
    rfl
  · have hValue : ∀ i < lsb.size_ + msb.size_, res.value i =
        if i < lsb.size_ then lsb.value i
        else msb.value (i - lsb.size_) := by grind
    rw [bits_eq (by omega) hValue, range_add, map_append, map_map]
    refine congrArg₂ _ ?_ ?_
    · apply map_congr_left
      exact fun i hMem => if_pos (mem_range.mp hMem)
    · apply map_congr_left
      intro i _
      rw [Function.comp_apply, if_neg (by omega), Nat.add_sub_cancel_left]

----
-- The Stack
----

/- What a literal has built above the stack: nothing at first,
   and then one vector. -/
def Built (count : Nat) (bits : List VvpBit4) (below stack : List VvpVector4) : Prop :=
  if count = 0 then bits = [] ∧ stack = below
  else bits ≠ [] ∧ ∃ v, stack = v :: below ∧ v.bits = bits

variable {count wid : Nat} {base : List VvpBit4}
  {below stack : List VvpVector4}

theorem built_one {v : VvpVector4} (hWid : 0 < wid) {f : Nat → VvpBit4}
    (hBits : v.bits = (List.range wid).map f ++ base) :
    Built (count + 1) ((List.range wid).map f ++ base) below (v :: below) := by
  refine ⟨?_, v, rfl, hBits⟩
  rw [← length_pos_iff, length_append, length_map, length_range]
  omega

/- A vector is concatenated below the one that is there. -/
theorem concat_built {msb lsb : VvpVector4} (hBase : base ≠ []) (hMsb : msb.bits = base)
    (hWid : 0 < wid) {f : Nat → VvpBit4} (hLsb : lsb.bits = (List.range wid).map f) :
    ∃ res, concatVec msb lsb = some res ∧
      res.bits = (List.range wid).map f ++ base := by
  rw [← hLsb, ← hMsb]
  apply concatVec_spec
  · rw [← length_bits, hMsb]
    exact length_pos_iff.mpr hBase
  · rw [← length_bits, hLsb, length_map, length_range]
    exact hWid

/- An immediate piece comes below what is built. -/
theorem run_immediate (hBuilt : Built count base below stack) (hWid : 0 < wid)
    (val0 valx : BitVec 64) (code : List Vec4Op) :
    ∃ stack', run (immediateOp count val0 valx wid :: code) stack = run code stack' ∧
      Built (count + 1) ((List.range wid).map
        (maskBit (val0.setWidth 32) (valx.setWidth 32)) ++ base)
        below stack' := by
  unfold Built at hBuilt
  unfold immediateOp
  split_ifs at hBuilt ⊢ with hFirst
  · rcases hBuilt with ⟨hBase, hStack⟩
    rcases pushiValue_spec hWid (val0.setWidth 32) (valx.setWidth 32) with ⟨v, hPush, hBits⟩
    refine ⟨v :: below, ?_, built_one hWid ?_⟩
    · rw [run, step, hPush, hStack]
      rfl
    · rw [hBits, hBase, append_nil]
  · rcases hBuilt with ⟨hBase, msb, hStack, hMsb⟩
    rcases concat_built hBase hMsb hWid (bits_immediateLoop wid
      (val0.setWidth 32) (valx.setWidth 32)) with ⟨v, hConcat, hBits⟩
    refine ⟨v :: below, ?_, built_one hWid hBits⟩
    rw [hStack, run, step]
    simp only [hConcat, Option.bind_eq_bind, Option.bind_some]

/- A piece of a string likewise. -/
theorem run_piece (hBuilt : Built count base below stack) (hWid : 0 < wid) (tmp : BitVec 64)
    (code : List Vec4Op) :
    ∃ stack', run (pieceOps count tmp wid ++ code) stack = run code stack' ∧
      Built 1 ((List.range wid).map (maskBit (tmp.setWidth 32) 0#32) ++ base) below stack' := by
  rcases pushiValue_spec hWid (tmp.setWidth 32) 0#32 with ⟨lsb, hPush, hLsb⟩
  unfold Built at hBuilt
  unfold pieceOps
  split_ifs at hBuilt ⊢ with hFirst
  · rcases hBuilt with ⟨hBase, hStack⟩
    refine ⟨lsb :: below, ?_, built_one hWid ?_⟩
    · change ((pushiValue (tmp.setWidth 32) 0#32 wid).bind _).bind _ = _
      rw [hPush, hStack]
      rfl
    · rw [hLsb, hBase, append_nil]
  · rcases hBuilt with ⟨hBase, msb, hStack, hMsb⟩
    rcases concat_built hBase hMsb hWid hLsb with ⟨v, hConcat, hBits⟩
    refine ⟨v :: below, ?_, built_one hWid hBits⟩
    rw [hStack, List.cons_append]
    change ((pushiValue (tmp.setWidth 32) 0#32 wid).bind _).bind _ = _
    rw [hPush]
    simp only [Option.bind_some, singleton_append, run, step, hConcat, Option.bind_eq_bind]

----
-- Numbers
----

/- The mask of the bits that were scanned, the last one first. -/
def scanned (f : VvpBit4 → Bool) (seen : List VvpBit4) : BitVec 64 :=
  seen.foldr (fun bit val => val <<< 1 ||| literalMask (f bit)) 0#64

theorem getLsbD_scanned {f : VvpBit4 → Bool} (hZero : f .zero = false)
    (seen : List VvpBit4) {i : Nat} (hI : i < 64) :
    (scanned f seen).getLsbD i = f (seen.getD i .zero) := by
  induction seen generalizing i with
  | nil =>
    rw [List.getD_nil, hZero]
    exact getLsbD_zero
  | cons bit seen ih =>
    have hMask : (literalMask (f bit)).getLsbD i = (decide (i = 0) && f bit) := by
      unfold literalMask
      grind
    rw [scanned, List.foldr_cons, getLsbD_or, BitVec.getLsbD_shiftLeft, hMask, decide_eq_true hI]
    cases i with
    | zero => simp
    | succ i =>
      have hTail := ih (Nat.lt_of_succ_lt hI)
      rw [scanned] at hTail
      rw [Nat.add_sub_cancel, hTail]
      simp

/- Nothing but zeros above the lowest bits. -/
def ZerosFrom (n : Nat) (seen : List VvpBit4) : Prop :=
  ∀ i, n ≤ i → seen.getD i .zero = .zero

/- The operands have all bits of a piece. -/
theorem map_scanned {seen : List VvpBit4} (hHigh : ZerosFrom 32 seen) :
    (List.range seen.length).map (maskBit
      ((scanned VvpBit4.abit seen).setWidth 32)
      ((scanned VvpBit4.bbit seen).setWidth 32)) = seen := by
  apply List.ext_getElem
  · rw [length_map, length_range]
  · intro i hI hLt
    rw [List.getElem_map, List.getElem_range, maskBit, getLsbD_setWidth, getLsbD_setWidth]
    have hGet : seen.getD i .zero = seen[i] := by grind
    by_cases hLow : i < 32
    · rw [decide_eq_true hLow, getLsbD_scanned rfl seen (by omega),
        getLsbD_scanned rfl seen (by omega), hGet]
      exact VvpBit4.ofBits_bits _
    · rw [decide_eq_false hLow, ← hGet, hHigh i (by omega)]
      rfl

/- What was scanned is put below what is built. -/
theorem run_scanned (hBuilt : Built count base below stack) {seen : List VvpBit4}
    (hHigh : ZerosFrom 32 seen) (hSeen : seen ≠ []) (code : List Vec4Op) :
    ∃ stack', run (immediateOp count (scanned VvpBit4.abit seen)
        (scanned VvpBit4.bbit seen) seen.length :: code) stack =
        run code stack' ∧
      Built (count + 1) (seen ++ base) below stack' := by
  have hRun := run_immediate hBuilt (length_pos_iff.mpr hSeen)
    (scanned VvpBit4.abit seen) (scanned VvpBit4.bbit seen) code
  rw [map_scanned hHigh] at hRun
  exact hRun

/- The loop puts what it has scanned and what is left below what
   is built. -/
theorem run_drawNumberLoop (hBuilt : Built count base below stack) {seen rest : List VvpBit4}
    (hHigh : ZerosFrom 31 seen) (hSome : rest.reverse ++ seen ++ base ≠ []) :
    ∃ v, run (drawNumberLoop rest (scanned VvpBit4.abit seen)
        (scanned VvpBit4.bbit seen) seen.length count) stack =
        some (v :: below) ∧
      v.bits = rest.reverse ++ seen ++ base := by
  induction rest generalizing count base stack seen with
  | nil =>
    rw [drawNumberLoop]
    by_cases hNone : seen.length = 0
    · rw [List.length_eq_zero_iff] at hNone
      rw [hNone] at hSome ⊢
      unfold Built at hBuilt
      split_ifs at hBuilt
      · exact absurd hBuilt.1 hSome
      · rcases hBuilt.2 with ⟨v, hStack, hBits⟩
        exact ⟨v, congrArg some hStack, hBits⟩
    · rw [if_neg hNone]
      rcases run_scanned hBuilt (fun i hI => hHigh i (by omega))
        (mt List.length_eq_zero_iff.mpr hNone) [] with
        ⟨stack', hRun, -, v, hStack, hBits⟩
      exact ⟨v, hRun.trans (congrArg some hStack), hBits⟩
  | cons bit rest ih =>
    have hShifted : ZerosFrom 32 (bit :: seen) := by
      intro i hI
      rw [show i = i - 1 + 1 by omega]
      exact hHigh (i - 1) (by omega)
    have hWhole : (bit :: rest).reverse ++ seen = rest.reverse ++ bit :: seen := by
      rw [List.reverse_cons, append_assoc, singleton_append]
    change ∃ v, run (if (scanned VvpBit4.abit (bit :: seen) |||
      scanned VvpBit4.bbit (bit :: seen)).getLsbD 31 = true then _
        else drawNumberLoop rest (scanned VvpBit4.abit (bit :: seen))
          (scanned VvpBit4.bbit (bit :: seen)) (bit :: seen).length count) stack = _ ∧ _
    rw [getLsbD_or, getLsbD_scanned rfl _ (by decide), getLsbD_scanned rfl _ (by decide), hWhole]
    rw [hWhole] at hSome
    by_cases hFull : (((bit :: seen).getD 31 .zero).abit ||
      ((bit :: seen).getD 31 .zero).bbit) = true
    · rw [if_pos hFull]
      rcases run_scanned hBuilt hShifted (List.cons_ne_nil _ _)
        (drawNumberLoop rest 0#64 0#64 0 (count + 1)) with
        ⟨stack', hRun, hBuilt'⟩
      rcases @ih _ _ _ hBuilt' [] (fun i _ => rfl) (by simp) with ⟨v, hRest, hBits⟩
      refine ⟨v, hRun.trans hRest, ?_⟩
      rw [hBits, append_nil, append_assoc]
    · rw [if_neg hFull]
      refine ih hBuilt ?_ hSome
      intro i hI
      rcases Nat.lt_or_ge i 32 with hLow | hMore
      · rw [show i = 31 by omega]
        cases hBit : (bit :: seen).getD 31 .zero <;>
          rw [hBit] at hFull <;> first | rfl | exact absurd rfl hFull
      · exact hShifted i hMore

----
-- Strings
----

/- The bits of a byte, lowest first. -/
def byteBits (c : Fin 256) : List VvpBit4 :=
  (List.range 8).map fun k => VvpBit4.ofBits false (c.val.testBit k)

/- The bits of a string, whose first byte is the highest. -/
def stringBits (str : ByteString) : List VvpBit4 :=
  str.reverse.flatMap byteBits

/- The piece of some bytes, the last one first. -/
def pieceOf (seen : ByteString) : BitVec 64 :=
  seen.foldr (fun c tmp => tmp <<< 8 ||| charLong c) 0#64

/- The bytes that a piece holds: one from 128 on spoils those
   before it. -/
def spoiled : ByteString → ByteString
| [] => []
| c :: seen => c :: if 128 ≤ c then List.replicate seen.length 255 else spoiled seen

/- A byte from 128 on comes first in its group of four, or after
   bytes of 255 only. -/
def Unspoiled : ByteString → ByteString → Prop
| _, [] => True
| seen, c :: str =>
  (128 ≤ c → ∀ b ∈ seen, b = 255) ∧ Unspoiled (if seen.length = 3 then [] else c :: seen) str

/- The bytes that the loop leaves, the last one first. -/
def shownBytes : ByteString → ByteString → ByteString
| seen, [] => spoiled seen
| seen, c :: str =>
  if seen.length = 3 then shownBytes [] str ++ spoiled (c :: seen)
  else shownBytes (c :: seen) str

theorem length_spoiled (seen : ByteString) : (spoiled seen).length = seen.length := by
  induction seen with
  | nil => rfl
  | cons c seen ih =>
    rw [spoiled, length_cons, length_cons]
    split_ifs
    · rw [List.length_replicate]
    · rw [ih]

theorem length_shownBytes (seen str : ByteString) :
    (shownBytes seen str).length = str.length + seen.length := by
  induction str generalizing seen with
  | nil => rw [shownBytes, length_spoiled, List.length_nil, Nat.zero_add]
  | cons c str ih =>
    rw [shownBytes, length_cons]
    split_ifs
    · rw [length_append, ih, length_spoiled, List.length_nil, length_cons]
      omega
    · rw [ih, length_cons]
      omega

theorem spoiled_cons_iff (c : Fin 256) (seen : ByteString) :
    spoiled (c :: seen) = c :: seen ↔
      spoiled seen = seen ∧ (128 ≤ c → ∀ b ∈ seen, b = 255) := by
  rw [spoiled, List.cons.injEq, and_iff_right rfl]
  by_cases hHigh : 128 ≤ c
  · rw [if_pos hHigh, eq_comm, List.eq_replicate_iff, and_iff_right rfl]
    refine ⟨fun hAll => ⟨?_, fun _ => hAll⟩, fun h => h.2 hHigh⟩
    cases seen with
    | nil => rfl
    | cons d seen =>
      have hTail := List.eq_replicate_iff.mpr ⟨rfl, fun b hB => hAll b (List.mem_cons_of_mem d hB)⟩
      rw [hAll d List.mem_cons_self, spoiled, if_pos (by decide), ← hTail]
  · grind

/- The string is left as it is if and only if no byte is
   spoiled. -/
theorem shownBytes_iff (seen str : ByteString) :
    shownBytes seen str = str.reverse ++ seen ↔
      spoiled seen = seen ∧ Unspoiled seen str := by
  induction str generalizing seen with
  | nil => rw [shownBytes, Unspoiled, and_true, List.reverse_nil, List.nil_append]
  | cons c str ih =>
    have hWhole : (c :: str).reverse ++ seen = str.reverse ++ c :: seen := by
      rw [List.reverse_cons, append_assoc, singleton_append]
    rw [shownBytes, Unspoiled, hWhole, ← and_assoc, ← spoiled_cons_iff]
    split_ifs
    · rw [List.append_eq_append_iff_of_size_eq_right (length_spoiled _), and_comm]
      have hTail := ih []
      rw [append_nil, and_iff_right (by exact rfl)] at hTail
      rw [hTail]
    · exact ih _

theorem getLsbD_charLong (c : Fin 256) {i : Nat} (hI : i < 64) :
    (charLong c).getLsbD i =
      if i < 8 then c.val.testBit i else decide (128 ≤ c) := by
  unfold charLong
  rw [BitVec.getLsbD_signExtend, decide_eq_true hI]
  split_ifs
  · rfl
  · rw [BitVec.msb_eq_decide]
    rfl

/- The operand has the bytes of the piece, spoiled. -/
theorem map_pieceOf {seen : ByteString} (hShort : seen.length ≤ 4) :
    (List.range (8 * seen.length)).map
      (maskBit ((pieceOf seen).setWidth 32) 0#32) = (spoiled seen).flatMap byteBits := by
  induction seen with
  | nil => rfl
  | cons c seen ih =>
    rw [length_cons] at hShort
    have hTail := ih (by omega)
    have hBit : ∀ i < 32,
        maskBit ((pieceOf (c :: seen)).setWidth 32) 0#32 i =
          VvpBit4.ofBits false ((!decide (i < 8) &&
            (pieceOf seen).getLsbD (i - 8)) || (charLong c).getLsbD i) := by
      intro i hI
      rw [maskBit, getLsbD_zero, getLsbD_setWidth, decide_eq_true hI, pieceOf,
        List.foldr_cons, getLsbD_or, BitVec.getLsbD_shiftLeft,
        decide_eq_true (by omega)]
      rfl
    rw [length_cons, Nat.mul_add, Nat.add_comm,
      range_add, map_append, map_map, spoiled, flatMap_cons]
    refine congrArg₂ _ ?_ ?_
    · apply map_congr_left
      intro i hMem
      have hI := mem_range.mp hMem
      rw [hBit i (by omega), getLsbD_charLong c (by omega), if_pos hI,
        decide_eq_true hI, Bool.not_true, Bool.false_and, Bool.false_or]
    · have hHigh : ∀ i < 8 * seen.length,
          maskBit ((pieceOf (c :: seen)).setWidth 32) 0#32 (8 + i) =
            VvpBit4.ofBits false ((pieceOf seen).getLsbD i || decide (128 ≤ c)) := by
        intro i hI
        rw [hBit (8 + i) (by omega), getLsbD_charLong c (by omega), if_neg (by omega),
          decide_eq_false (by omega), Bool.not_false, Bool.true_and, Nat.add_sub_cancel_left]
      split_ifs with hByte
      · have hOnes : ∀ n, (List.range (8 * n)).map (fun _ => VvpBit4.one) =
            (List.replicate n (255 : Fin 256)).flatMap byteBits := by
          intro n
          induction n with
          | zero => rfl
          | succ n ihN =>
            rw [Nat.mul_add, Nat.add_comm, range_add, map_append,
              map_map, List.replicate_succ, flatMap_cons, ← ihN]
            rfl
        rw [← hOnes]
        apply map_congr_left
        intro i hMem
        rw [Function.comp_apply, hHigh i (mem_range.mp hMem), decide_eq_true hByte, Bool.or_true]
        rfl
      · rw [← hTail]
        apply map_congr_left
        intro i hMem
        have hI := mem_range.mp hMem
        rw [Function.comp_apply, hHigh i hI, decide_eq_false hByte, Bool.or_false, maskBit,
          getLsbD_zero, getLsbD_setWidth, decide_eq_true (by omega), Bool.true_and]

/- The loop puts the bytes below what is built. -/
theorem run_drawStringLoop (hBuilt : Built count base below stack) {seen str : ByteString}
    (hShort : seen.length < 4) (hSome : str ≠ [] ∨ seen ≠ [] ∨ base ≠ []) :
    ∃ v, run (drawStringLoop str (pieceOf seen) (8 * seen.length) count) stack = some (v :: below) ∧
      v.bits = (shownBytes seen str).flatMap byteBits ++ base := by
  induction str generalizing count base stack seen with
  | nil =>
    rw [drawStringLoop]
    by_cases hNone : seen = []
    · rw [hNone]
      have hBase : base ≠ [] := (hSome.resolve_left fun h => h rfl).resolve_left (· hNone)
      unfold Built at hBuilt
      split_ifs at hBuilt
      · exact absurd hBuilt.1 hBase
      · rcases hBuilt.2 with ⟨v, hStack, hBits⟩
        exact ⟨v, congrArg some hStack, hBits⟩
    · have hPos := length_pos_iff.mpr hNone
      rw [if_neg (by omega)]
      rcases run_piece hBuilt (show 0 < 8 * seen.length by omega)
        (pieceOf seen) [] with ⟨stack', hRun, -, v, hStack, hBits⟩
      rw [append_nil] at hRun
      rw [map_pieceOf (by omega)] at hBits
      exact ⟨v, hRun.trans (congrArg some hStack), hBits⟩
  | cons c str ih =>
    rw [drawStringLoop, shownBytes]
    by_cases hFull : seen.length = 3
    · rw [if_pos (by omega), if_pos hFull]
      rcases run_piece hBuilt (by decide : 0 < 32) (pieceOf (c :: seen))
        (drawStringLoop str 0#64 0 1) with ⟨stack', hRun, hBuilt'⟩
      have hPiece := @map_pieceOf (c :: seen) (by
        rw [length_cons]
        omega)
      rw [length_cons, hFull] at hPiece
      rw [hPiece] at hBuilt'
      rcases @ih _ _ _ hBuilt' [] (by decide) (Or.inr (Or.inr hBuilt'.1)) with ⟨v, hRest, hBits⟩
      refine ⟨v, hRun.trans hRest, ?_⟩
      rw [hBits, List.flatMap_append, append_assoc]
    · rw [if_neg (by omega), if_neg hFull]
      refine ih hBuilt ?_ (Or.inr (Or.inl (List.cons_ne_nil _ _)))
      rw [length_cons]
      omega

----
-- Texts
----

theorem octalLoop_charText (c : Fin 256) (str : ByteString) :
    octalLoop (charText c ++ str) = (octalLoop str).map (c :: ·) := by
  have hOctal : octalLoop (octalText c ++ str) = (octalLoop str).map (c :: ·) := by
    have hByte : ∀ c : Fin 256, (48 + c / 64 - 48) * 64 +
        (48 + c / 8 % 8 - 48) * 8 + (48 + c % 8 - 48) = c := by
      decide +kernel
    unfold octalText
    simp only [List.cons_append, List.nil_append]
    rw [octalLoop, if_pos rfl, hByte c]
  unfold charText
  split_ifs with hQuote
  · exact hOctal
  · rw [octalLoop.eq_def]
    exact if_neg (mt Or.inr hQuote)
  · exact hOctal

/- The text of a string is decoded. -/
theorem processOctalCodes_text (bytes : ByteString) :
    processOctalCodes (bytes.flatMap charText) (8 * bytes.length) = some bytes := by
  unfold processOctalCodes
  split_ifs with hPlain
  · refine congrArg some ?_
    induction bytes with
    | nil => rfl
    | cons c bytes ih =>
      rw [flatMap_cons, length_append, length_cons] at hPlain
      have hOne := charText_length c
      have hRest := flatMap_charText_length bytes
      have hChar : charText c = [c] := by
        have hLength : (charText c).length = 1 := by omega
        unfold charText octalText at hLength ⊢
        split_ifs at hLength ⊢ <;> first | rfl | cases hLength
      rw [flatMap_cons, ih (by omega), hChar]
      rfl
  · clear hPlain
    induction bytes with
    | nil => rfl
    | cons c bytes ih =>
      rw [flatMap_cons, octalLoop_charText, ih]
      rfl

theorem flatMap_byteBits_iff {s t : ByteString} (hLength : s.length = t.length) :
    s.flatMap byteBits = t.flatMap byteBits ↔ s = t := by
  refine ⟨fun h => ?_, fun h => congrArg _ h⟩
  induction s generalizing t with
  | nil => exact (List.length_eq_zero_iff.mp hLength.symm).symm
  | cons c s ih =>
    cases t with
    | nil => cases hLength
    | cons d t =>
      rcases List.append_inj h rfl with ⟨hByte, hRest⟩
      rw [ih (Nat.succ.inj hLength) hRest]
      refine congrArg (· :: t) (Fin.ext (Nat.eq_of_testBit_eq fun i => ?_))
      rcases Nat.lt_or_ge i 8 with hLow | hHigh
      · have hBit := List.map_inj_left.mp hByte i (mem_range.mpr hLow)
        cases hC : c.val.testBit i <;> cases hD : d.val.testBit i <;>
          rw [hC, hD] at hBit <;> first | rfl | cases hBit
      · have hPow := Nat.pow_le_pow_right (by decide : 0 < 2) hHigh
        rw [Nat.testBit_lt_two_pow (Nat.lt_of_lt_of_le c.2 hPow),
          Nat.testBit_lt_two_pow (Nat.lt_of_lt_of_le d.2 hPow)]

----
-- Literals
----

/- A number is built bit for bit, alone or below the vector that
   is there. -/
def NumberBuilt (bits : List VvpBit4) : Prop :=
  (bits ≠ [] → ∀ stack, ∃ v,
    run (drawConcatNumberVec4 bits false) stack = some (v :: stack) ∧ v.bits = bits) ∧
  ∀ top stack, 0 < top.size_ → ∃ v,
    run (drawConcatNumberVec4 bits true) (top :: stack) = some (v :: stack) ∧
    v.bits = bits ++ top.bits

/- The text of a string is pushed as one vector that has its
   bytes. -/
def StringBuilt (bytes : ByteString) : Prop :=
  ∃ code, drawStringVec4 (bytes.flatMap charText) (8 * bytes.length) = some code ∧
    ∀ stack, ∃ v, run code stack = some (v :: stack) ∧ v.bits = stringBits bytes

theorem numberBuilt (bits : List VvpBit4) : NumberBuilt bits := by
  constructor
  · intro hBits stack
    have hRun := @run_drawNumberLoop 0 [] stack stack ⟨rfl, rfl⟩ []
      bits.reverse (fun i _ => rfl) (by simpa using hBits)
    rw [List.reverse_reverse, append_nil, append_nil] at hRun
    exact hRun
  · intro top stack hTop
    have hBase : top.bits ≠ [] := by
      rw [← length_pos_iff, length_bits]
      exact hTop
    have hRun := @run_drawNumberLoop 1 top.bits stack (top :: stack)
      ⟨hBase, top, rfl, rfl⟩ [] bits.reverse (fun i _ => rfl)
      (by simp [hBase])
    rw [List.reverse_reverse, append_nil] at hRun
    exact hRun

theorem stringBuilt_iff {bytes : ByteString} (hBytes : bytes ≠ []) :
    StringBuilt bytes ↔ Unspoiled [] bytes := by
  have hCode : drawStringVec4 (bytes.flatMap charText) (8 * bytes.length) =
      some (drawStringLoop bytes 0#64 0 0) := by
    unfold drawStringVec4
    rw [processOctalCodes_text, Option.bind_eq_bind, Option.bind_some,
      show (8 * bytes.length + 7) / 8 = bytes.length by omega]
    rw [if_neg (by omega), List.take_left]
  have hRun := fun stack => @run_drawStringLoop 0 [] stack stack
    ⟨rfl, rfl⟩ [] bytes (by decide) (Or.inl hBytes)
  have hIff := shownBytes_iff [] bytes
  rw [append_nil, and_iff_right (by exact rfl),
    ← flatMap_byteBits_iff (by
      rw [length_shownBytes, List.length_reverse]
      rfl)] at hIff
  rw [← hIff]
  constructor
  · rintro ⟨code, hSome, hBuilt⟩
    rw [hCode, Option.some.injEq] at hSome
    rcases hBuilt [] with ⟨v, hV, hBits⟩
    rcases hRun [] with ⟨w, hW, hShown⟩
    rw [← hSome] at hV
    rw [append_nil] at hShown
    have hSame : v = w := by
      have hStacks := hV.symm.trans hW
      rw [Option.some.injEq, List.cons.injEq] at hStacks
      exact hStacks.1
    rw [← hShown, ← hSame]
    exact hBits
  · intro hShown
    refine ⟨_, hCode, fun stack => ?_⟩
    rcases hRun stack with ⟨v, hV, hBits⟩
    refine ⟨v, hV, ?_⟩
    rw [hBits, append_nil, hShown]
    rfl

/- Every number is built bit for bit; a string has its bytes if
   and only if none is spoiled by one from 128 on. -/
theorem literals_exact (bits : List VvpBit4) (bytes : ByteString) (hBytes : bytes ≠ []) :
    NumberBuilt bits ∧ (StringBuilt bytes ↔ Unspoiled [] bytes) :=
  ⟨numberBuilt bits, stringBuilt_iff hBytes⟩

/- Letters of one group and of the next. -/
theorem literals_exact_letter : NumberBuilt [.one, .x] ∧ StringBuilt [72, 101, 108, 108, 111] := by
  rcases literals_exact [.one, .x] [72, 101, 108, 108, 111] (by decide) with ⟨hNumber, hString⟩
  exact ⟨hNumber, hString.mpr (by simp [Unspoiled])⟩

/- A letter before an octal escape of 128. -/
theorem letter_spoiled : ¬ StringBuilt [65, 128] := by
  rw [stringBuilt_iff (by decide)]
  intro hUnspoiled
  exact absurd (hUnspoiled.2.1 (by decide) 65 List.mem_cons_self) (by decide)

end EpicSim
