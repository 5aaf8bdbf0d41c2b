import EpicSim.Vvp.Subvalue

/-
  The packed words of a part of a vector.

  `subarray` reads the abits of a part, and fails where one of
  its bbits is set; `setarray` writes the words back and clears
  the bbits.  Both go on by as many bits as the words of the
  vector and of the array have in common.
-/

namespace EpicSim

open List (replicate length_set)
open BitVec (allOnes getLsbD_and getLsbD_zero getLsbD_or getLsbD_not)

namespace PackedWords

----
-- Reading
----

/- The lowest bits of a word. -/
def maskTo (count : Nat) (word : BitVec 64) : BitVec 64 :=
  if count < 64 then word &&& lowMask count else word

/- The smaller of two numbers, and of three. -/
def least (a b c : Nat) : Nat :=
  let trans := if b < a then b else a
  if c < trans then c else trans

/- `while (wid > 0)`: none where a bit is X or Z. -/
def subarrayLoop (abits bbits : List (BitVec 64)) (xz_to_0 : Bool) :
    Nat → Nat → Nat → Nat → Nat → List (BitVec 64) → Option (List (BitVec 64))
| 0, _, _, _, _, val => some val
| rounds + 1, wid, adr, val_ptr, val_off, val =>
  if 0 < wid then
    let off := adr % 64
    let moved := least (64 - off) (64 - val_off) wid
    let atmp := maskTo moved (wordAt abits (adr / 64) >>> off)
    let btmp := maskTo moved (wordAt bbits (adr / 64) >>> off)
    if btmp ≠ 0#64 ∧ xz_to_0 = false then none
    else
      let atmp := if btmp ≠ 0#64 then atmp &&& ~~~btmp else atmp
      let val := val.set val_ptr
        (wordAt val val_ptr ||| (atmp <<< val_off))
      if val_off + moved = 64 then
        subarrayLoop abits bbits xz_to_0 rounds (wid - moved) (adr + moved) (val_ptr + 1) 0 val
      else
        subarrayLoop abits bbits xz_to_0 rounds (wid - moved)
          (adr + moved) val_ptr (val_off + moved) val
  else some val

/- `subarray` of a vector of `size` bits into `awid` words. -/
def subarrayWords (size : Nat) (abits bbits : List (BitVec 64)) (adr wid awid : Nat)
    (xz_to_0 : Bool) : Option (List (BitVec 64)) :=
  let val := replicate awid 0#64
  if size ≤ 64 then
    let atmp := maskTo wid (wordAt abits 0 >>> adr)
    let btmp := maskTo wid (wordAt bbits 0 >>> adr)
    if btmp ≠ 0#64 ∧ xz_to_0 = false then none
    else
      let atmp := if btmp ≠ 0#64 then atmp &&& ~~~btmp else atmp
      some (val.set 0 atmp)
  else subarrayLoop abits bbits xz_to_0 wid wid adr 0 0 val

----
-- Writing
----

/- The mask of a range of bits of a word. -/
def holeMask (lo hi : Nat) : BitVec 64 :=
  let lmask := lowMask lo
  let hmask := if hi < 64 then allOnes 64 <<< hi else 0#64
  ~~~(hmask ||| lmask)

/- A store of abits under a mask, with the bbits cleared. -/
def putWord (ptr : Nat) (mask src : BitVec 64) (st : List (BitVec 64) × List (BitVec 64)) :
    List (BitVec 64) × List (BitVec 64) :=
  (st.1.set ptr ((wordAt st.1 ptr &&& ~~~mask) ||| (mask &&& src)),
    st.2.set ptr (wordAt st.2 ptr &&& ~~~mask))

/- `while (wid > 0)`: the abits and the bbits. -/
def setarrayLoop (val : List (BitVec 64)) :
    Nat → Nat → Nat → Nat → Nat → Nat →
      List (BitVec 64) × List (BitVec 64) → List (BitVec 64) × List (BitVec 64)
| 0, _, _, _, _, _, st => st
| rounds + 1, wid, off, ptr, val_off, val_ptr, st =>
  if 0 < wid then
    let moved := least wid (64 - val_off) (64 - off)
    let mask := holeMask off (off + moved)
    let src :=
      if off ≤ val_off then wordAt val val_ptr >>> (val_off - off)
      else wordAt val val_ptr <<< (off - val_off)
    let st := putWord ptr mask src st
    let next := if val_off + moved = 64 then (0, val_ptr + 1)
      else (val_off + moved, val_ptr)
    let place := if off + moved = 64 then (0, ptr + 1)
      else (off + moved, ptr)
    setarrayLoop val rounds (wid - moved) place.1 place.2 next.1 next.2 st
  else st

/- `setarray` into the words of a vector of `size` bits. -/
def setarrayWords (size adr wid : Nat) (val : List (BitVec 64))
    (st : List (BitVec 64) × List (BitVec 64)) : List (BitVec 64) × List (BitVec 64) :=
  if size ≤ 64 then
    putWord 0 (holeMask adr (adr + wid)) (wordAt val 0 <<< adr) st
  else setarrayLoop val wid wid (adr % 64) (adr / 64) 0 0 st

theorem length_setarrayLoop (val : List (BitVec 64)) :
    ∀ (rounds wid off ptr val_off val_ptr : Nat)
      (st : List (BitVec 64) × List (BitVec 64)),
      (setarrayLoop val rounds wid off ptr val_off val_ptr st).1.length = st.1.length ∧
        (setarrayLoop val rounds wid off ptr val_off val_ptr st).2.length = st.2.length
| 0, _, _, _, _, _, _ => ⟨rfl, rfl⟩
| rounds + 1, wid, off, ptr, val_off, val_ptr, st => by
    rw [setarrayLoop]
    by_cases hMore : 0 < wid
    · simp only [if_pos hMore]
      have hRest := length_setarrayLoop val rounds
      simp only [hRest, putWord, length_set, and_self]
    · rw [if_neg hMore]
      exact ⟨rfl, rfl⟩

theorem length_setarrayWords (size adr wid : Nat) (val : List (BitVec 64))
    (st : List (BitVec 64) × List (BitVec 64)) :
    (setarrayWords size adr wid val st).1.length = st.1.length ∧
      (setarrayWords size adr wid val st).2.length = st.2.length := by
  unfold setarrayWords
  split_ifs
  · exact ⟨length_set, length_set⟩
  · exact length_setarrayLoop _ _ _ _ _ _ _ _

----
-- What Is Read
----

theorem least_eq (a b c : Nat) : least a b c = min (min a b) c := by
  unfold least
  simp only
  split_ifs <;> omega

variable {off adr count : Nat}

theorem getLsbD_maskTo (word : BitVec 64) (count : Nat) (hOff : off < 64) :
    (maskTo count word).getLsbD off = (decide (off < count) && word.getLsbD off) := by
  unfold maskTo
  split_ifs with hPart
  · rw [getLsbD_and, getLsbD_lowMask hPart, Bool.and_comm]
  · rw [decide_eq_true (by omega), Bool.true_and]

/- The bits of a window of a word. -/
theorem getLsbD_window (words : List (BitVec 64))
    (hCount : adr % 64 + count ≤ 64) (hOff : off < 64) :
    (maskTo count (wordAt words (adr / 64) >>> (adr % 64))).getLsbD off =
      (decide (off < count) && bitAt words (adr + off)) := by
  rw [getLsbD_maskTo _ _ hOff]
  by_cases hPart : off < count
  · rw [getLsbD_shiftDown words (by omega)]
  · rw [decide_eq_false hPart, Bool.false_and, Bool.false_and]

/- A window is 0 where none of its bits is set. -/
theorem window_eq_zero_iff (words : List (BitVec 64)) {adr count : Nat}
    (hCount : adr % 64 + count ≤ 64) :
    maskTo count (wordAt words (adr / 64) >>> (adr % 64)) = 0#64 ↔
      ∀ i < count, bitAt words (adr + i) = false := by
  constructor
  · intro hZero i hI
    have hBit := congrArg (fun w => w.getLsbD i) hZero
    simp only [getLsbD_window words hCount (by omega : i < 64),
      decide_eq_true hI, getLsbD_zero] at hBit
    exact hBit
  · intro hNone
    apply word_ext
    intro off hOff
    rw [getLsbD_window words hCount hOff, getLsbD_zero]
    grind

/- A window that is or'ed into the array above the bits that
   are there. -/
theorem bitAt_or_window {abits val : List (BitVec 64)} {base adr val_ptr val_off count : Nat}
    (hIn : val_ptr < val.length) (hPlace : base + (64 * val_ptr + val_off) = adr)
    (hOff : val_off < 64) (hCount : adr % 64 + count ≤ 64) (hRoom : val_off + count ≤ 64)
    (hBits : ∀ i, bitAt val i = (decide (i < 64 * val_ptr + val_off) && bitAt abits (base + i)))
    (i : Nat) :
    bitAt (val.set val_ptr
        (wordAt val val_ptr |||
          (maskTo count (wordAt abits (adr / 64) >>> (adr % 64)) <<< val_off))) i =
      (decide (i < 64 * val_ptr + val_off + count) && bitAt abits (base + i)) := by
  have hMod : i % 64 < 64 := Nat.mod_lt i (by decide)
  rw [bitAt_set hIn]
  by_cases hWord : i / 64 = val_ptr
  · have hOld : (wordAt val val_ptr).getLsbD (i % 64) = bitAt val i := by
      rw [← hWord]
      rfl
    rw [if_pos hWord, getLsbD_or, hOld, hBits,
      BitVec.getLsbD_shiftLeft, decide_eq_true hMod, Bool.true_and]
    by_cases hBelow : i % 64 < val_off
    · grind
    · have hPos : adr + (i % 64 - val_off) = base + i := by omega
      rw [decide_eq_false hBelow, decide_eq_false (by omega),
        getLsbD_window abits hCount (by omega), hPos, Bool.not_false,
        Bool.true_and, Bool.false_and, Bool.false_or]
      congr 1
      rw [decide_eq_decide]
      omega
  · grind

/- The loop reads the abits where no bbit is set. -/
theorem subarrayLoop_spec {abits bbits : List (BitVec 64)} {base total : Nat} :
    ∀ {rounds wid adr val_ptr val_off : Nat}
      {val : List (BitVec 64)},
      wid ≤ rounds →
      adr + wid = base + total →
      base + (64 * val_ptr + val_off) = adr →
      val_off < 64 →
      val.length = (total + 63) / 64 →
      (∀ i, bitAt val i = (decide (i < 64 * val_ptr + val_off) && bitAt abits (base + i))) →
      if ∀ i < wid, bitAt bbits (adr + i) = false then
        ∃ res,
          subarrayLoop abits bbits false rounds wid adr val_ptr val_off val = some res ∧
          res.length = (total + 63) / 64 ∧
          ∀ i, bitAt res i = (decide (i < total) && bitAt abits (base + i))
      else
        subarrayLoop abits bbits false rounds wid adr val_ptr val_off val = none
| 0, wid, adr, val_ptr, val_off, val, hRounds, hEnd, hPlace, _,
    hLen, hBits => by
    have hDone : 64 * val_ptr + val_off = total := by omega
    rw [if_pos (fun i hI => absurd hI (by omega))]
    rw [hDone] at hBits
    exact ⟨val, rfl, hLen, hBits⟩
| rounds + 1, wid, adr, val_ptr, val_off, val, hRounds, hEnd,
    hPlace, hOff, hLen, hBits => by
    rw [subarrayLoop]
    by_cases hMore : 0 < wid
    · have hMoved : ∃ count,
          least (64 - adr % 64) (64 - val_off) wid = count ∧
          0 < count ∧ count ≤ wid ∧ adr % 64 + count ≤ 64 ∧
          val_off + count ≤ 64 := by
        refine ⟨_, rfl, ?_⟩
        rw [least_eq]
        omega
      rcases hMoved with ⟨count, hLeast, hPos, hLe, hCount, hRoom⟩
      rw [if_pos hMore]
      simp only [hLeast, and_true]
      by_cases hZero : maskTo count (wordAt bbits (adr / 64) >>> (adr % 64)) = 0#64
      · have hClear := (window_eq_zero_iff bbits hCount).mp hZero
        have hRest : (∀ i < wid, bitAt bbits (adr + i) = false) ↔
            ∀ i < wid - count,
              bitAt bbits (adr + count + i) = false := by
          constructor
          · intro hAll i hI
            rw [Nat.add_assoc]
            exact hAll (count + i) (by omega)
          · intro hAll i hI
            by_cases hFirst : i < count
            · exact hClear i hFirst
            · have hBit := hAll (i - count) (by omega)
              rwa [show adr + count + (i - count) = adr + i by omega] at hBit
        have hNext := bitAt_or_window
          (by omega : val_ptr < val.length) hPlace hOff hCount hRoom
          hBits
        have hNextLen : (val.set val_ptr
            (wordAt val val_ptr |||
              (maskTo count (wordAt abits (adr / 64) >>> (adr % 64)) <<< val_off))).length =
              (total + 63) / 64 := by
          rw [length_set, hLen]
        have hGo := fun (next_ptr next_off : Nat)
            (hSum : 64 * next_ptr + next_off = 64 * val_ptr + val_off + count)
            (hNextOff : next_off < 64) =>
          @subarrayLoop_spec abits bbits base total rounds
            (wid - count) (adr + count) next_ptr next_off _
            (by omega) (by omega) (by omega) hNextOff hNextLen
            (fun i => by rw [hNext i, hSum])
        simp only [hZero, hRest]
        by_cases hWrap : val_off + count = 64
        · simp only [if_pos hWrap]
          exact hGo (val_ptr + 1) 0 (by omega) (by decide)
        · simp only [if_neg hWrap]
          exact hGo val_ptr (val_off + count) (by omega) (by omega)
      · have hSome : ¬ ∀ i < wid, bitAt bbits (adr + i) = false := by
          intro hAll
          apply hZero
          rw [window_eq_zero_iff bbits hCount]
          exact fun i hI => hAll i (by omega)
        rw [if_neg hSome]
        simp only [hZero, ne_eq, not_false_eq_true, if_true]
    · have hDone : 64 * val_ptr + val_off = total := by omega
      rw [if_pos (fun i hI => absurd hI (by omega)), if_neg hMore]
      rw [hDone] at hBits
      exact ⟨val, rfl, hLen, hBits⟩

theorem bitAt_replicate_zero (n i : Nat) : bitAt (replicate n 0#64) i = false := by
  unfold bitAt wordAt
  rcases Nat.lt_or_ge (i / 64) n with hIn | hOut
  · simp
  · rw [List.getD_eq_default _ _ (by rw [List.length_replicate]; exact hOut), getLsbD_zero]

/- The words of a part without X and Z, and none with them. -/
theorem subarrayWords_spec {size adr wid : Nat} {abits bbits : List (BitVec 64)} (hWid : 0 < wid)
    (hIn : adr + wid ≤ size) :
    if ∀ i < wid, bitAt bbits (adr + i) = false then
      ∃ res,
        subarrayWords size abits bbits adr wid ((wid + 63) / 64) false = some res ∧
        res.length = (wid + 63) / 64 ∧
        ∀ i, bitAt res i = (decide (i < wid) && bitAt abits (adr + i))
    else
      subarrayWords size abits bbits adr wid ((wid + 63) / 64) false = none := by
  have hLen : (replicate ((wid + 63) / 64) 0#64).length = (wid + 63) / 64 := List.length_replicate
  unfold subarrayWords
  by_cases hSmall : size ≤ 64
  · have hAdr : adr / 64 = 0 := Nat.div_eq_of_lt (by omega)
    have hMod : adr % 64 = adr := Nat.mod_eq_of_lt (by omega)
    have hWindow := @window_eq_zero_iff bbits adr wid (by omega)
    rw [hAdr, hMod] at hWindow
    simp only [if_pos hSmall, and_true]
    by_cases hZero : maskTo wid (wordAt bbits 0 >>> adr) = 0#64
    · have hOr := @bitAt_or_window abits
        (replicate ((wid + 63) / 64) 0#64) adr adr 0 0 wid
        (by omega) rfl (by decide) (by omega) (by omega)
        (fun i => by
          rw [bitAt_replicate_zero, decide_eq_false (by omega), Bool.false_and])
      have hWord : wordAt (replicate ((wid + 63) / 64) 0#64) 0 = 0#64 := by
        unfold wordAt
        rw [List.getD_eq_getElem _ _ (by rw [hLen]; omega), List.getElem_replicate]
      grind
    · grind
  · simp only [if_neg hSmall]
    apply subarrayLoop_spec (le_refl wid) rfl (by omega) (by decide) hLen
    intro i
    rw [bitAt_replicate_zero, decide_eq_false (by omega), Bool.false_and]

----
-- What Is Written
----

theorem getLsbD_holeMask {lo hi : Nat} (hLo : lo < 64) (hOff : off < 64) :
    (holeMask lo hi).getLsbD off =
      decide (lo ≤ off ∧ off < hi) := by
  have hHigh : (if hi < 64 then allOnes 64 <<< hi
      else 0#64).getLsbD off = decide (hi ≤ off) := by
    split_ifs with hIn
    · exact getLsbD_allOnes_shiftLeft hOff
    · rw [getLsbD_zero, decide_eq_false (by omega)]
  unfold holeMask
  rw [getLsbD_not, getLsbD_or, hHigh, getLsbD_lowMask hLo,
    decide_eq_true hOff, Bool.true_and, ← Bool.decide_or, ← decide_not, decide_eq_decide]
  omega

/- So many bits from `adr` on are those of the array, with no
   bbit set. -/
structure PutTo (val : List (BitVec 64)) (adr : Nat) (abits bbits : List (BitVec 64)) (n : Nat)
    (st : List (BitVec 64) × List (BitVec 64)) : Prop where
  alength : st.1.length = abits.length
  blength : st.2.length = bbits.length
  abit : ∀ j, bitAt st.1 j =
    if adr ≤ j ∧ j < adr + n then bitAt val (j - adr)
    else bitAt abits j
  bbit : ∀ j, bitAt st.2 j =
    if adr ≤ j ∧ j < adr + n then false else bitAt bbits j

theorem PutTo.none (val : List (BitVec 64)) (adr : Nat) (abits bbits : List (BitVec 64)) :
    PutTo val adr abits bbits 0 (abits, bbits) :=
  ⟨rfl, rfl, fun j => by rw [if_neg (by omega)], fun j => by rw [if_neg (by omega)]⟩

/- A store of the bits that follow. -/
theorem PutTo.word {val abits bbits : List (BitVec 64)}
    {n ptr : Nat} {src : BitVec 64} {st : List (BitVec 64) × List (BitVec 64)}
    (hDone : PutTo val adr abits bbits n st) (hA : ptr < abits.length) (hB : ptr < bbits.length)
    (hPlace : 64 * ptr + off = adr + n) (hOff : off < 64) (hRoom : off + count ≤ 64)
    (hSrc : ∀ o, off ≤ o → o < off + count → src.getLsbD o = bitAt val (64 * ptr + o - adr)) :
    PutTo val adr abits bbits (n + count) (putWord ptr (holeMask off (off + count)) src st) := by
  have hAlen := hDone.alength
  have hBlen := hDone.blength
  unfold putWord
  constructor
  · rw [length_set, hAlen]
  · rw [length_set, hBlen]
  · intro j
    have hMod : j % 64 < 64 := Nat.mod_lt j (by decide)
    rw [bitAt_set (by omega)]
    by_cases hWord : j / 64 = ptr
    · have hOld : (wordAt st.1 ptr).getLsbD (j % 64) = bitAt st.1 j := by
        rw [← hWord]
        rfl
      rw [if_pos hWord, getLsbD_or, getLsbD_and, getLsbD_and, getLsbD_not,
        getLsbD_holeMask hOff hMod, decide_eq_true hMod, Bool.true_and, hOld, hDone.abit]
      by_cases hHere : off ≤ j % 64 ∧ j % 64 < off + count
      · grind
      · grind
    · have hSame : (adr ≤ j ∧ j < adr + n) ↔
          (adr ≤ j ∧ j < adr + (n + count)) := by
        omega
      rw [if_neg hWord, hDone.abit]
      simp only [hSame]
  · intro j
    have hMod : j % 64 < 64 := Nat.mod_lt j (by decide)
    rw [bitAt_set (by omega)]
    by_cases hWord : j / 64 = ptr
    · have hOld : (wordAt st.2 ptr).getLsbD (j % 64) = bitAt st.2 j := by
        rw [← hWord]
        rfl
      rw [if_pos hWord, getLsbD_and, getLsbD_not, getLsbD_holeMask hOff hMod,
        decide_eq_true hMod, Bool.true_and, hOld, hDone.bbit]
      grind
    · have hSame : (adr ≤ j ∧ j < adr + n) ↔
          (adr ≤ j ∧ j < adr + (n + count)) := by
        omega
      rw [if_neg hWord, hDone.bbit]
      simp only [hSame]

theorem getLsbD_shiftLeft_of_le
    {word : BitVec 64} (hLe : count ≤ off) (hOff : off < 64) :
    (word <<< count).getLsbD off = word.getLsbD (off - count) := by
  rw [BitVec.getLsbD_shiftLeft, decide_eq_true hOff, decide_eq_false (by omega),
    Bool.not_false, Bool.true_and, Bool.true_and]

/- The bits that a word of the array is shifted to. -/
theorem getLsbD_shifted (val : List (BitVec 64)) {val_off val_ptr o : Nat}
    (hRoom : val_off + count ≤ 64) (hFrom : off ≤ o) (hTo : o < off + count)
    (hOff : off + count ≤ 64) :
    (if off ≤ val_off then wordAt val val_ptr >>> (val_off - off)
      else wordAt val val_ptr <<< (off - val_off)).getLsbD o =
      bitAt val (64 * val_ptr + val_off + (o - off)) := by
  have hPlace : 64 * val_ptr + val_off + (o - off) = 64 * val_ptr + (val_off + (o - off)) := by
    omega
  rw [hPlace, bitAt_word val val_ptr (by omega)]
  split_ifs with hDown
  · rw [BitVec.getLsbD_ushiftRight]
    congr 1
    omega
  · grind

theorem setarrayLoop_spec {val abits bbits : List (BitVec 64)} {total : Nat}
    (hA : ∀ j < adr + total, j / 64 < abits.length)
    (hB : ∀ j < adr + total, j / 64 < bbits.length) :
    ∀ {rounds wid off ptr val_off val_ptr : Nat}
      {st : List (BitVec 64) × List (BitVec 64)},
      wid ≤ rounds →
      64 * val_ptr + val_off + wid = total →
      64 * ptr + off = adr + (64 * val_ptr + val_off) →
      off < 64 →
      val_off < 64 →
      PutTo val adr abits bbits (64 * val_ptr + val_off) st →
      PutTo val adr abits bbits total (setarrayLoop val rounds wid off ptr val_off val_ptr st)
| 0, wid, _, _, val_off, val_ptr, st, hRounds, hEnd, _, _, _,
    hDone => by
    have hTotal : 64 * val_ptr + val_off = total := by omega
    rw [hTotal] at hDone
    exact hDone
| rounds + 1, wid, off, ptr, val_off, val_ptr, st, hRounds, hEnd,
    hPlace, hOff, hValOff, hDone => by
    rw [setarrayLoop]
    by_cases hMore : 0 < wid
    · have hMoved : ∃ count,
          least wid (64 - val_off) (64 - off) = count ∧
          0 < count ∧ count ≤ wid ∧ off + count ≤ 64 ∧
          val_off + count ≤ 64 := by
        refine ⟨_, rfl, ?_⟩
        rw [least_eq]
        omega
      rcases hMoved with ⟨count, hLeast, hPos, hLe, hRoom, hValRoom⟩
      have hAt : (64 * ptr + off) / 64 = ptr := by omega
      have hAWord := hA (64 * ptr + off) (by omega)
      have hBWord := hB (64 * ptr + off) (by omega)
      rw [hAt] at hAWord hBWord
      have hSrc : ∀ o, off ≤ o → o < off + count →
          (if off ≤ val_off then
              wordAt val val_ptr >>> (val_off - off)
            else wordAt val val_ptr <<< (off - val_off)).getLsbD o =
            bitAt val (64 * ptr + o - adr) := by
        intro o hFrom hTo
        have hSame : 64 * val_ptr + val_off + (o - off) = 64 * ptr + o - adr := by omega
        rw [getLsbD_shifted val hValRoom hFrom hTo hRoom, hSame]
      have hNext := hDone.word hAWord hBWord hPlace hOff hRoom hSrc
      have hSumNext : ∀ {vo vp : Nat},
          (if val_off + count = 64 then (0, val_ptr + 1)
            else (val_off + count, val_ptr)) = (vo, vp) →
          64 * vp + vo = 64 * val_ptr + val_off + count ∧
            vo < 64 := by
        intro vo vp hPair
        split_ifs at hPair <;> (rcases Prod.mk.inj hPair with ⟨rfl, rfl⟩; omega)
      have hSumPlace : ∀ {o p : Nat},
          (if off + count = 64 then (0, ptr + 1)
            else (off + count, ptr)) = (o, p) →
          64 * p + o = 64 * ptr + off + count ∧ o < 64 := by
        intro o p hPair
        split_ifs at hPair <;> (rcases Prod.mk.inj hPair with ⟨rfl, rfl⟩; omega)
      rw [if_pos hMore]
      simp only [hLeast]
      generalize hValPair : (if val_off + count = 64 then
        (0, val_ptr + 1) else (val_off + count, val_ptr)) = next
      generalize hPair : (if off + count = 64 then (0, ptr + 1)
        else (off + count, ptr)) = place
      rcases hSumNext hValPair with ⟨hVal, hValLt⟩
      rcases hSumPlace hPair with ⟨hPos', hLt⟩
      rw [← hVal] at hNext
      exact setarrayLoop_spec hA hB (by omega) (by omega) (by omega) hLt hValLt hNext
    · have hTotal : 64 * val_ptr + val_off = total := by omega
      rw [if_neg hMore]
      rw [hTotal] at hDone
      exact hDone

theorem setarrayWords_spec {size adr wid : Nat} {val abits bbits : List (BitVec 64)}
    (hA : abits.length = wordCount size)
    (hB : bbits.length = wordCount size) (hWid : 0 < wid) (hIn : adr + wid ≤ size) :
    PutTo val adr abits bbits wid (setarrayWords size adr wid val (abits, bbits)) := by
  have hStart := PutTo.none val adr abits bbits
  have hAIn : ∀ j < adr + wid, j / 64 < abits.length := by
    intro j hJ
    rw [hA]
    exact div_lt_wordCount (by omega)
  have hBIn : ∀ j < adr + wid, j / 64 < bbits.length := by grind
  unfold setarrayWords
  by_cases hSmall : size ≤ 64
  · have hSrc : ∀ o, adr ≤ o → o < adr + wid →
        (wordAt val 0 <<< adr).getLsbD o = bitAt val (64 * 0 + o - adr) := by
      intro o hFrom hTo
      have hPlace : 64 * 0 + o - adr = 64 * 0 + (o - adr) := by omega
      rw [getLsbD_shiftLeft_of_le hFrom (by omega), hPlace, bitAt_word val 0 (by omega)]
    have hAFirst : 0 < abits.length := hAIn 0 (by omega)
    have hBFirst : 0 < bbits.length := hBIn 0 (by omega)
    have hWord := hStart.word hAFirst hBFirst
      (by omega : 64 * 0 + adr = adr + 0) (by omega)
      (by omega : adr + wid ≤ 64) hSrc
    grind
  · rw [if_neg hSmall]
    exact setarrayLoop_spec hAIn hBIn (le_refl wid) (by omega)
      (by omega) (Nat.mod_lt adr (by decide)) (by decide) hStart

end PackedWords

----
-- Vectors
----

open PackedWords

namespace VvpVector4

/- `subarray` of a part: none is the nil pointer. -/
def subarrayAt (v : VvpVector4) (adr wid : Nat) (xz_to_0 : Bool) : Option (List (BitVec 64)) :=
  subarrayWords v.size_ v.abits v.bbits adr wid ((wid + 63) % 2 ^ 32 / 64) xz_to_0

/- `setarray`; none where its assertion fails. -/
def setarray (v : VvpVector4) (adr wid : Nat) (val : List (BitVec 64)) : Option VvpVector4 :=
  if adr + wid ≤ v.size_ then
    let st := setarrayWords v.size_ adr wid val (v.abits, v.bbits)
    some
      { size_ := v.size_
        abits := st.1
        bbits := st.2
        abits_length := by
          rw [(length_setarrayWords _ _ _ _ _).1]
          exact v.abits_length
        bbits_length := by
          rw [(length_setarrayWords _ _ _ _ _).2]
          exact v.bbits_length }
  else none

/- X or Z in the part gives nil; otherwise the words hold its
   bits and are written back as they are. -/
def ArraysRight (v : VvpVector4) (adr wid : Nat) : Prop :=
  (v.subarrayAt adr wid false = none ↔ ∃ idx < wid, (v.value (adr + idx)).isXz = true) ∧
  ∀ val, v.subarrayAt adr wid false = some val →
    val.length = (wid + 63) / 64 ∧
    (∀ idx, bitAt val idx = decide (idx < wid ∧ v.value (adr + idx) = .one)) ∧
    ∃ res,
      v.setarray adr wid val = some res ∧
      res.size_ = v.size_ ∧
      ∀ idx < v.size_, res.value idx = v.value idx

theorem isXz_ofBits (b a : Bool) : (VvpBit4.ofBits b a).isXz = b := by
  cases b <;> cases a <;> rfl

theorem ofBits_eq_one_iff (b a : Bool) : VvpBit4.ofBits b a = .one ↔ b = false ∧ a = true := by
  cases b <;> cases a <;> decide

/- The words of a two-state part are written back. -/
theorem setarray_back {v : VvpVector4} {adr wid : Nat} {val : List (BitVec 64)}
    (hWid : 1 ≤ wid) (hIn : adr + wid ≤ v.size_) (hTwo : ∀ i < wid, bitAt v.bbits (adr + i) = false)
    (hVal : ∀ i < wid, bitAt val i = bitAt v.abits (adr + i)) :
    ∃ res,
      v.setarray adr wid val = some res ∧
      res.size_ = v.size_ ∧
      ∀ idx < v.size_, res.value idx = v.value idx := by
  have hPut := @setarrayWords_spec v.size_ adr wid val v.abits
    v.bbits v.abits_length v.bbits_length hWid hIn
  refine ⟨_, if_pos hIn, rfl, fun idx hIdx => ?_⟩
  rw [value_of_lt (by exact hIdx), value_of_lt hIdx]
  rw [hPut.abit, hPut.bbit]
  split_ifs with hPart
  · grind
  · rfl

theorem arraysRight {v : VvpVector4} (hAllocated : v.Allocated) {adr wid : Nat} (hWid : 1 ≤ wid)
    (hIn : adr + wid ≤ v.size_) : ArraysRight v adr wid := by
  have hCount : (wid + 63) % 2 ^ 32 / 64 = (wid + 63) / 64 := by
    unfold Allocated at hAllocated
    omega
  have hSpec := @subarrayWords_spec v.size_ adr wid v.abits v.bbits hWid hIn
  have hXz : ∀ idx < wid, (v.value (adr + idx)).isXz = bitAt v.bbits (adr + idx) := by
    intro idx hIdx
    rw [value_of_lt (by omega), isXz_ofBits]
  unfold ArraysRight subarrayAt
  rw [hCount]
  by_cases hTwo : ∀ i < wid, bitAt v.bbits (adr + i) = false
  · rw [if_pos hTwo] at hSpec
    rcases hSpec with ⟨res, hSome, hLen, hBits⟩
    rw [hSome]
    constructor
    · grind
    · intro val hVal
      rw [← Option.some.inj hVal]
      refine ⟨hLen, fun idx => ?_, ?_⟩
      · rw [hBits]
        by_cases hIdx : idx < wid
        · have hOne : v.value (adr + idx) = .one ↔
              bitAt v.abits (adr + idx) = true := by
            rw [value_of_lt (by omega), ofBits_eq_one_iff, hTwo idx hIdx]
            simp
          rw [Bool.eq_iff_iff, decide_eq_true_eq, hOne]
          simp [hIdx]
        · rw [decide_eq_false hIdx, Bool.false_and, decide_eq_false (fun h => hIdx h.1)]
      · apply setarray_back hWid hIn hTwo
        intro i hI
        rw [hBits, decide_eq_true hI, Bool.true_and]
  · grind

/- A part is read as a vector where the number of words of the
   result does not wrap, and as packed words always. -/
theorem part_read_exact (adr : Nat) {wid : Nat} (hWid : 1 ≤ wid) :
    (∀ that : VvpVector4, adr + wid < 2 ^ 32 → (SelectsRight that adr wid ↔ wid + 63 < 2 ^ 32)) ∧
    (∀ v : VvpVector4, v.Allocated → adr + wid ≤ v.size_ → ArraysRight v adr wid) :=
  ⟨fun that hSum => selectsRight_iff that hSum,
    fun _ hAllocated hIn => arraysRight hAllocated hWid hIn⟩

theorem part_read_exact_border :
    SelectsRight (.fill 130 .one) 60 66 ∧ ArraysRight (.fill 130 .one) 60 66 :=
  ⟨((part_read_exact 60 (by decide)).1 (.fill 130 .one) (by decide)).mpr (by decide),
    (part_read_exact 60 (by decide)).2 (.fill 130 .one) (by decide) (by decide)⟩

/- The widest part has no words. -/
theorem widest_part_has_no_words : ¬ SelectsRight (.fill 1 .zero) 0 (2 ^ 32 - 1) := by
  intro hRight
  have hFits := (selectsRight_iff (.fill 1 .zero) (by decide)).mp hRight
  exact absurd hFits (by decide)

end VvpVector4

end EpicSim
