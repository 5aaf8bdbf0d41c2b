import EpicSim.Vvp.ArrayPort
import EpicSim.Vvp.PartWords

/-
  Every read port of an array shows the word that its address
  names, in every run in which no number is cut to one that
  names another word, unless the last value it sent is the
  initial one.
-/

namespace EpicSim

----
-- Numbers of Address Vectors
----

/- The number of a vector, if it has no X and no Z. -/
def vectorNumber : List VvpBit4 → Option Nat
| [] => some 0
| .zero :: bits => (vectorNumber bits).map fun n => 2 * n
| .one :: bits => (vectorNumber bits).map fun n => 2 * n + 1
| _ :: _ => none

namespace ArrayPort

theorem or_mask {k res : Nat} (hRes : res < 2 ^ k) : res ||| 2 ^ k = res + 2 ^ k := by
  have hAdd := Nat.two_pow_add_eq_or_of_lt hRes 1
  rw [Nat.mul_one] at hAdd
  rw [Nat.or_comm, ← hAdd, Nat.add_comm]

/- The masks beyond the number are all zero. -/
theorem mask_lost {k : Nat} (hLarge : 64 ≤ k) : 2 ^ k % 2 ^ 64 = 0 :=
  Nat.mod_eq_zero_of_dvd (Nat.pow_dvd_pow 2 hLarge)

theorem vector4ToValueLoop_spec (bits : List VvpBit4) :
    ∀ (k res : Nat) (overflowFlag : Bool),
      res < 2 ^ k →
      res < 2 ^ 64 →
      (vector4ToValueLoop bits res (2 ^ k % 2 ^ 64) overflowFlag).map Prod.snd =
        (vectorNumber bits).map fun n =>
          (res + 2 ^ k * n) % 2 ^ 64 := by
  induction bits with
  | nil =>
    intro k res overflowFlag hMask hRes
    simp only [vector4ToValueLoop, vectorNumber, Option.map_some,
      Nat.mul_zero, Nat.add_zero, Nat.mod_eq_of_lt hRes]
  | cons bit bits ih =>
    intro k res overflowFlag hMask hRes
    have hNext : 2 * (2 ^ k % 2 ^ 64) % 2 ^ 64 = 2 ^ (k + 1) % 2 ^ 64 := by
      omega
    cases bit with
    | zero =>
      unfold vector4ToValueLoop vectorNumber
      rw [hNext, ih (k + 1) res _ (by omega) hRes, Option.map_map]
      congr 1
      funext n
      show (res + 2 ^ (k + 1) * n) % 2 ^ 64 = (res + 2 ^ k * (2 * n)) % 2 ^ 64
      rw [Nat.pow_succ, Nat.mul_assoc]
    | one =>
      unfold vector4ToValueLoop vectorNumber
      rw [hNext, Option.map_map]
      by_cases hLarge : 64 ≤ k
      · rw [if_pos (mask_lost hLarge), ih (k + 1) res _ (by omega) hRes]
        congr 1
        funext n
        show (res + 2 ^ (k + 1) * n) % 2 ^ 64 = (res + 2 ^ k * (2 * n + 1)) % 2 ^ 64
        have hLost : 2 ^ 64 ∣ 2 ^ k := Nat.pow_dvd_pow 2 hLarge
        obtain ⟨m, hm⟩ := hLost
        rw [Nat.pow_succ, hm, Nat.mul_add, Nat.mul_assoc, Nat.mul_assoc,
          Nat.mul_one, ← Nat.add_assoc, Nat.add_mul_mod_self_left,
          Nat.add_mul_mod_self_left, Nat.add_mul_mod_self_left]
      · have hSmall : 2 ^ k < 2 ^ 64 :=
          Nat.pow_lt_pow_right (by decide) (by omega)
        have hRoom : 2 ^ (k + 1) ≤ 2 ^ 64 := Nat.pow_le_pow_right (by decide) (by omega)
        rw [Nat.mod_eq_of_lt hSmall, if_neg (by omega), or_mask hMask,
          ih (k + 1) (res + 2 ^ k) _ (by omega) (by omega)]
        congr 1
        funext n
        show (res + 2 ^ k + 2 ^ (k + 1) * n) % 2 ^ 64 = (res + 2 ^ k * (2 * n + 1)) % 2 ^ 64
        rw [Nat.pow_succ, Nat.mul_add, Nat.mul_one, Nat.mul_assoc,
          Nat.add_assoc, Nat.add_comm (2 ^ k)]
    | x => rfl
    | z => rfl

/- What an address vector gives, modulo two to the 64. -/
theorem vector4ToValue_eq (bits : List VvpBit4) :
    vector4ToValue bits = (vectorNumber bits).map fun n => n % 2 ^ 64 := by
  have hLoop := vector4ToValueLoop_spec bits 0 0 false (by decide) (by decide)
  simp only [Nat.pow_zero, Nat.one_mul, Nat.zero_add] at hLoop
  exact hLoop

end ArrayPort

----
-- What a Port is to Show
----

/- The word of an array of this size that is addressed. -/
def AddressInput.address (n : Nat) : AddressInput → Option Nat
| .unset => none
| .const addr => if 0 ≤ addr ∧ addr < n then some addr.toNat else none
| .vec4 bit =>
  match vectorNumber bit with
  | some number => if number < n then some number else none
  | none => none

/- The contents of the addressed word, or X. -/
def VvpArray.shown (arr : VvpArray) (input : AddressInput) : List VvpBit4 :=
  match input.address arr.words.length with
  | some a => arr.getWord a
  | none => List.replicate arr.valsWidth .x

/- The last value that a port has sent is what it is to show. -/
def ArrayPort.Shows (arr : VvpArray) (port : ArrayPort) : Prop :=
  ∀ val, port.sent.value = some val → val = .vec4 (arr.shown port.input)

/- An initial value is the last that a port has sent only where
   it is what the port is to show. -/
def ArrayPort.Started (arr : VvpArray) (port : ArrayPort) : Prop :=
  ∀ val, port.sent = .initial val → val = .vec4 (arr.shown port.input)

/-
  A vector that names no word of the array names none when it
  is cut to 32 bits.
-/
def AddressInput.Fits (n : Nat) : AddressInput → Prop
| .unset => True
| .const addr => -2 ^ 63 ≤ addr ∧ addr < 2 ^ 63
| .vec4 bit => ∀ number, vectorNumber bit = some number → number < n ∨ n ≤ number % 2 ^ 32

/- An index register that names a word, also when cut. -/
def RegisterFits (n : Nat) (adr : Int) : Prop :=
  (0 ≤ adr ∧ adr < n) ∨ n ≤ toUnsigned adr

/- The word that a register names. -/
def registerWord (n : Nat) (adr : Int) : Option Nat :=
  if 0 ≤ adr ∧ adr < n then some adr.toNat else none

namespace ArrayPort

/-
  A port watches the word it is to show, and a word that it
  has sent is that one.  Before its first address it watches
  the first word.
-/
structure Watches (arr : VvpArray) (port : ArrayPort) : Prop where
  addr :
    if port.input = .unset then port.addr = 0
    else
      ∀ a, a < arr.words.length → (port.addr = a ↔ port.input.address arr.words.length = some a)
  sent : ∀ val, port.sent = .word val → val = arr.shown port.input

theorem Watches.shows {arr : VvpArray} {port : ArrayPort} (h : port.Watches arr)
    (hStarted : port.Started arr) : port.Shows arr := by
  intro val hVal
  cases hSent : port.sent with
  | nothing =>
    rw [hSent] at hVal
    cases hVal
  | initial _ =>
    rw [hSent] at hVal
    cases hVal
    exact hStarted _ hSent
  | word last =>
    rw [hSent] at hVal
    cases hVal
    rw [h.sent last hSent]

theorem shows_of_word {arr : VvpArray} {port : ArrayPort}
    (hSent : port.sent = .word (arr.shown port.input)) : port.Shows arr := by
  intro val hVal
  rw [hSent] at hVal
  cases hVal
  rfl

theorem getWord_beyond {arr : VvpArray} {a : Nat} (h : arr.words.length ≤ a) :
    arr.getWord a = List.replicate arr.valsWidth .x :=
  List.getD_eq_default _ _ h

/- A new address. -/
theorem recvVec4_shows {arr : VvpArray} {port : ArrayPort} {bit : List VvpBit4}
    (hCount : arr.words.length < 2 ^ 32) (hFits : (AddressInput.vec4 bit).Fits arr.words.length) :
    (port.recvVec4 arr bit).Watches arr ∧
      (port.recvVec4 arr bit).Shows arr := by
  have hNamed :
      ∀ number, vectorNumber bit = some number →
        (number % 2 ^ 64 = number ∧ number < arr.words.length) ∨
        (arr.words.length ≤ number % 2 ^ 64 ∧
          arr.words.length ≤ number ∧
          arr.words.length ≤ toUnsigned (number % 2 ^ 64 : Nat)) := by
    intro number hNumber
    have hCut : (toUnsigned (number % 2 ^ 64 : Nat)) = number % 2 ^ 32 := by
      unfold toUnsigned
      omega
    rcases hFits number hNumber with hIn | hOut
    · left
      omega
    · right
      omega
  have hWord : (port.recvVec4 arr bit).sent = .word (arr.shown (.vec4 bit)) := by
    unfold recvVec4 VvpArray.shown AddressInput.address
    simp only [vector4ToValue_eq, PortSent.word.injEq]
    cases hNumber : vectorNumber bit with
    | none =>
      have hSize : toUnsigned (arr.words.length : Nat) = arr.words.length :=
        toUnsigned_of_small (by omega) (by omega)
      simp only [Option.map_none, hSize]
      exact getWord_beyond (Nat.le_refl _)
    | some number =>
      simp only [Option.map_some]
      rcases hNamed number hNumber with ⟨hSame, hIn⟩ | ⟨hOut, hFar, hCut⟩
      · have hSmall : toUnsigned (number : Nat) = number :=
          toUnsigned_of_small (by omega) (by omega)
        rw [if_pos hIn, hSame, hSmall]
      · rw [if_neg (by omega)]
        exact getWord_beyond hCut
  refine ⟨⟨?_, fun val hVal => ?_⟩, shows_of_word hWord⟩
  rotate_left
  · rw [hWord] at hVal
    cases hVal
    rfl
  intro a ha
  unfold recvVec4 AddressInput.address
  simp only [vector4ToValue_eq]
  cases hNumber : vectorNumber bit with
  | none => grind
  | some number =>
    simp only [Option.map_some]
    rcases hNamed number hNumber with ⟨hSame, hIn⟩ | ⟨hOut, hFar, hCut⟩
    · rw [if_pos hIn, hSame, Option.some.injEq]
    · grind

/- A new port. -/
theorem create_watches {arr : VvpArray} {input : AddressInput} (hCount : arr.words.length < 2 ^ 32)
    (hInput : ∀ bit, input ≠ .vec4 bit) (hFits : input.Fits arr.words.length) :
    (create arr input).Watches arr := by
  constructor
  · cases input with
    | unset =>
      rfl
    | const addr =>
      intro a ha
      unfold create AddressInput.address
      rcases hFits with ⟨hLow, hHigh⟩
      grind
    | vec4 bit => exact absurd rfl (hInput bit)
  · intro val hVal
    cases hVal

/- The initial value is sent. -/
theorem initPropagate_watches {arr : VvpArray} {port : ArrayPort} (hWatches : port.Watches arr) :
    port.initPropagate.Watches arr ∧
      ((∀ val, port.pending = some val → val = .vec4 (arr.shown port.input)) →
        port.Started arr → port.initPropagate.Shows arr) := by
  unfold initPropagate
  cases hPending : port.pending with
  | none => exact ⟨hWatches, fun _ hStarted => hWatches.shows hStarted⟩
  | some first =>
    refine ⟨⟨hWatches.addr, fun val hVal => by cases hVal⟩, fun hFirst _ val hVal => ?_⟩
    cases hVal
    exact hFirst first rfl

/- A word that changes. -/
theorem checkWordChange_shows {arr arr' : VvpArray} {port : ArrayPort} {a : Nat}
    (hCount : arr.words.length < 2 ^ 32) (ha : a < arr.words.length)
    (hLength : arr'.words.length = arr.words.length) (hWidth : arr'.valsWidth = arr.valsWidth)
    (hOthers : ∀ b, b ≠ a → arr'.getWord b = arr.getWord b)
    (hWatches : port.Watches arr) (hFirst : a = 0 → port.input ≠ .unset) :
    (port.checkWordChange arr' a).Watches arr' ∧
      (port.Started arr ∨ port.addr = a → (port.checkWordChange arr' a).Shows arr') := by
  have hSmall : toUnsigned (a : Nat) = a := toUnsigned_of_small (by omega) (by omega)
  have hAddr := hWatches.addr
  by_cases hHere : a = port.addr
  · have hSet : port.input ≠ .unset := by grind
    rw [if_neg hSet] at hAddr
    have hAddress := (hAddr a ha).mp hHere.symm
    have hSent : (port.checkWordChange arr' a).sent = .word (arr'.shown port.input) := by
      unfold checkWordChange VvpArray.shown
      rw [if_neg (not_not_intro hHere)]
      rw [hLength, hAddress, ← hHere, hSmall]
    have hInput : (port.checkWordChange arr' a).input = port.input := by
      unfold checkWordChange
      rw [if_neg (not_not_intro hHere)]
    refine ⟨⟨?_, fun val hVal => ?_⟩, fun _ => shows_of_word (by rw [hSent, hInput])⟩
    · unfold checkWordChange
      rw [if_neg (not_not_intro hHere), if_neg hSet, hLength]
      exact hAddr
    · rw [hSent] at hVal
      cases hVal
      rw [hInput]
  · have hSame : port.checkWordChange arr' a = port := if_pos hHere
    have hShown :
        arr'.shown port.input = arr.shown port.input := by
      unfold VvpArray.shown
      rw [hLength, hWidth]
      split
      · next b hAddress =>
          apply hOthers
          rintro rfl
          apply hHere
          by_cases hSet : port.input = .unset
          · rw [hSet] at hAddress
            cases hAddress
          · grind
      · rfl
    rw [hSame]
    refine ⟨⟨?_, fun val hVal => ?_⟩, fun hOr val hVal => ?_⟩
    · rw [hLength]
      exact hAddr
    · rw [hShown]
      exact hWatches.sent val hVal
    · rw [hShown]
      exact hWatches.shows (hOr.resolve_right (Ne.symm hHere)) val hVal

end ArrayPort

----
-- Written Words
----

namespace VvpArray

@[simp] theorem placedAt_count (arr : VvpArray) (address : Nat) (val : List VvpBit4) (base : Int) :
    (arr.placedAt address val base).words.length = arr.words.length :=
  List.length_set

variable {arr : VvpArray} {val : List VvpBit4}

theorem getWord_placedAt_ne {address a : Nat} {base : Int} (hNe : a ≠ address) :
    (arr.placedAt address val base).getWord a = arr.getWord a := by
  unfold getWord placedAt
  simp only [List.getD_eq_getElem?_getD, List.getElem?_set_ne (Ne.symm hNe)]

theorem placedAt_fits {address W : Nat} {base : Int} (hFits : arr.Fits W)
    (hAdr : address < arr.words.length) : (arr.placedAt address val base).Fits W := by
  refine ⟨hFits.width, ?_⟩
  intro word hMem
  rcases List.mem_or_eq_of_mem_set hMem with hOld | hNew
  · exact hFits.words word hOld
  · rw [hNew, placed_length]
    exact hFits.words _ (getWord_mem hAdr)

/- A whole value or a part that the word has. -/
def TakesPart (arr : VvpArray) (partOff : Nat) (val : List VvpBit4) : Prop :=
  if arr.twoState then partOff = 0 ∧ val.length = arr.valsWidth
  else
    partOff + val.length ≤ arr.valsWidth ∧
    (partOff < arr.valsWidth ∨ arr.valsWidth % 64 ≠ 0)

theorem setWord_takes {address partOff W : Nat} (hFits : arr.Fits W)
    (hAdr : address < arr.words.length) (hTakes : arr.TakesPart partOff val) :
    arr.setWord address partOff val = some (arr.placedAt address val partOff) := by
  unfold TakesPart at hTakes
  rw [hFits.width] at hTakes
  have hRoom : partOff + val.length ≤ W := by
    split at hTakes
    · omega
    · exact hTakes.1
  have hPart :
      if arr.twoState then partOff = 0 ∧ W ≤ val.length - 0
      else partOff < W ∨ W % 64 ≠ 0 := by grind
  have hSet := setWord_part hFits hAdr (by omega) (Nat.zero_le val.length) (Or.inr rfl) hPart
  have hAll : min (val.length - 0) (W - partOff) = val.length := by omega
  rw [hAll, ← eq_subvalue] at hSet
  exact hSet

end VvpArray

/- The address that a store passes on is cut to 32 bits. -/
theorem ofStoreVec4A_cut {arr : VvpArray} {flag4 : VvpBit4} {adr offset : Int}
    {value : List VvpBit4} :
    ofStoreVec4A arr flag4 adr offset value =
      ofStoreVec4A arr flag4 (toUnsigned adr : Nat) offset
        value := by
  have hCut : toUnsigned (toUnsigned adr : Nat) = toUnsigned adr := by
    unfold toUnsigned
    omega
  unfold ofStoreVec4A
  rw [hCut]

/-
  A store that does not fail: to a word that takes the part,
  or to no word.
-/
def StoreFits (arr : VvpArray) (adr offset : Int) (w : Nat) : Prop :=
  let n := arr.words.length
  (0 ≤ adr ∧ adr < n ∧ PartWrite.Safe (.storeVec4A arr.twoState) arr.valsWidth w offset) ∨
    (n ≤ toUnsigned adr ∧ storePart arr.valsWidth w offset ≠ .fails)

----
-- Steps
----

namespace ArrayOp

/- The word that is written. -/
def word (n : Nat) : ArrayOp → Option Nat
| .initPropagate _ => none
| .recvVec4 _ _ => none
| .setWord address _ _ => if address < n then some address else none
| .storeVec4A flag4 adr _ _ => if flag4 = .one then none else registerWord n adr

/- The array after it. -/
def written (arr : VvpArray) (op : ArrayOp) : VvpArray :=
  match op.word arr.words.length, op with
  | some a, .setWord _ partOff val => arr.placedAt a val partOff
  | some a, .storeVec4A _ _ offset value => arr.placedAt a value offset
  | _, _ => arr

/- Addresses that are not cut to others, parts that fit. -/
def Fits (arr : VvpArray) : ArrayOp → Prop
| .initPropagate _ => True
| .recvVec4 _ bit => (AddressInput.vec4 bit).Fits arr.words.length
| .setWord address partOff val => address < arr.words.length → arr.TakesPart partOff val
| .storeVec4A flag4 adr offset value =>
  flag4 = .one ∨
  (0 < value.length ∧ value.length < 2 ^ 31 ∧ StoreFits arr adr offset value.length)

/- It makes the port send a word. -/
def Sends (n idx : Nat) (port : ArrayPort) (op : ArrayOp) : Prop :=
  match op with
  | .initPropagate _ => False
  | .recvVec4 k _ => idx = k
  | _ => op.word n = some port.addr

/-
  It leaves the port no initial value other than what it is to
  show: it sends no such value, and makes the port send if one
  is still the last.
-/
structure Timely (arr : VvpArray) (idx : Nat) (port : ArrayPort) (op : ArrayOp) : Prop where
  pending : op = .initPropagate idx →
    ∀ val, port.pending = some val → val = .vec4 (arr.shown port.input)
  started : port.Started arr ∨ op.Sends arr.words.length idx port

end ArrayOp

namespace ArrayNet

/-
  What an array with ports may be asked to do.  The first word
  is not written before a port has its first address.
-/
structure Allows (net : ArrayNet) (op : ArrayOp) : Prop where
  fits : op.Fits net.arr
  first : op.word net.arr.words.length = some 0 → ∀ port ∈ net.ports, port.input ≠ .unset

/- Words of one width, and ports that watch them. -/
structure Sound (W n : Nat) (net : ArrayNet) : Prop where
  fits : net.arr.Fits W
  count : net.arr.words.length = n
  ports : ∀ port ∈ net.ports, port.Watches net.arr

variable {W n : Nat} {net : ArrayNet} {adr : Int} {op : ArrayOp}
  {flag4 : VvpBit4} {offset : Int} {value : List VvpBit4}

theorem create_sound {twoState : Bool} {inputs : List AddressInput} (hCount : n < 2 ^ 32)
    (hInputs : ∀ input ∈ inputs, input.Fits n ∧ ∀ bit, input ≠ .vec4 bit) :
    (create W n twoState inputs).Sound W n := by
  have hLength : (create W n twoState inputs).arr.words.length = n := List.length_replicate
  refine ⟨⟨rfl, ?_⟩, hLength, ?_⟩
  · intro word hMem
    rw [List.eq_of_mem_replicate hMem, List.length_replicate]
  · intro port hMem
    rcases List.mem_map.mp hMem with ⟨input, hIn, hPort⟩
    rcases hInputs input hIn with ⟨hFits, hNone⟩
    rw [← hPort]
    apply ArrayPort.create_watches
    · rw [hLength]
      exact hCount
    · exact hNone
    · rw [hLength]
      exact hFits

/- A written word. -/
theorem wordChange_sound {W n a : Nat} {net : ArrayNet} {val : List VvpBit4}
    {base : Int} (hCount : n < 2 ^ 32) (hSound : net.Sound W n) (ha : a < n)
    (hFirst : a = 0 → ∀ port ∈ net.ports, port.input ≠ .unset) :
    let arr := net.arr.placedAt a val base
    (wordChange { net with arr := arr } a).Sound W n ∧
      ∀ port ∈ net.ports, port.Started net.arr ∨ port.addr = a →
        (port.checkWordChange arr a).Shows arr := by
  intro arr
  have hLength := hSound.count
  have hPort :
      ∀ port ∈ net.ports,
        (port.checkWordChange arr a).Watches arr ∧
          (port.Started net.arr ∨ port.addr = a → (port.checkWordChange arr a).Shows arr) := by
    intro port hMem
    apply @ArrayPort.checkWordChange_shows net.arr
    · rw [hLength]
      exact hCount
    · rw [hLength]
      exact ha
    · exact VvpArray.placedAt_count _ _ _ _
    · rfl
    · intro b hNe
      exact VvpArray.getWord_placedAt_ne hNe
    · exact hSound.ports port hMem
    · exact fun h => hFirst h port hMem
  refine ⟨⟨?_, ?_, ?_⟩, fun port hMem => (hPort port hMem).2⟩
  · apply VvpArray.placedAt_fits hSound.fits
    rw [hLength]
    exact ha
  · rw [← hLength]
    exact VvpArray.placedAt_count _ _ _ _
  · intro port hMem
    rcases List.mem_map.mp hMem with ⟨old, hOld, hEq⟩
    rw [← hEq]
    exact (hPort old hOld).1

/- A register that fits names the same word when it is cut. -/
theorem registerWord_eq (hCount : n < 2 ^ 32) (hFits : RegisterFits n adr) :
    registerWord n adr =
      if toUnsigned adr < n then some (toUnsigned adr)
      else none := by
  unfold registerWord
  rcases hFits with ⟨hLow, hHigh⟩ | hOut
  · have hSame : toUnsigned adr = adr.toNat :=
      toUnsigned_of_small hLow (by omega)
    rw [if_pos ⟨hLow, hHigh⟩, hSame, if_pos (by omega)]
  · have hApart : ¬ (0 ≤ adr ∧ adr < n) := by
      rintro ⟨hLow, hHigh⟩
      have hLess := toUnsigned_le hLow
      omega
    rw [if_neg hApart, if_neg (by omega)]

/- What one step has to do. -/
def Steps (W n : Nat) (net : ArrayNet) (op : ArrayOp) : Prop :=
  ∃ net',
    net.step op = some net' ∧
    net'.Sound W n ∧
    net'.arr = op.written net.arr ∧
    ∀ idx port, net.ports[idx]? = some port → op.Timely net.arr idx port →
      ∃ port', net'.ports[idx]? = some port' ∧ port'.Shows net'.arr

/- A step that changes one port. -/
theorem steps_of_modify {k : Nat} {f : ArrayPort → ArrayPort} (hSound : net.Sound W n)
    (hWord : op.word net.arr.words.length = none)
    (hSends : ∀ idx port, op.Sends net.arr.words.length idx port → idx = k)
    (hStep : net.step op = some { net with ports := net.ports.modify k f })
    (hPort : ∀ port ∈ net.ports, (f port).Watches net.arr ∧
      (op.Timely net.arr k port → (f port).Shows net.arr)) :
    net.Steps W n op := by
  have hWritten : op.written net.arr = net.arr := by
    unfold ArrayOp.written
    rw [hWord]
  refine ⟨_, hStep, ⟨hSound.fits, hSound.count, ?_⟩, hWritten.symm, ?_⟩
  · intro port hMem
    rcases List.mem_iff_getElem?.mp hMem with ⟨idx, hIdx⟩
    rw [List.getElem?_modify] at hIdx
    rcases Option.map_eq_some_iff.mp hIdx with ⟨old, hOld, hEq⟩
    have hOldMem := List.mem_of_getElem? hOld
    rw [← hEq]
    split_ifs
    · exact (hPort old hOldMem).1
    · exact hSound.ports old hOldMem
  · intro idx port hIdx hTimely
    have hMem := List.mem_of_getElem? hIdx
    refine ⟨if k = idx then f port else port, ?_, ?_⟩
    · grind
    · split_ifs with hHere
      · grind
      · apply (hSound.ports port hMem).shows
        exact hTimely.started.resolve_right (fun hSend => hHere (hSends idx port hSend).symm)

/- A step that writes a word. -/
theorem steps_of_write {W n a : Nat} {val : List VvpBit4} {base : Int}
    (hCount : n < 2 ^ 32) (hSound : net.Sound W n) (hAllows : net.Allows op) (hSends :
      ∀ idx port, op.Sends net.arr.words.length idx port →
        op.word net.arr.words.length = some port.addr)
    (ha : a < n) (hWord : op.word net.arr.words.length = some a)
    (hWritten : op.written net.arr = net.arr.placedAt a val base)
    (hStep : net.step op = some (wordChange { net with arr := net.arr.placedAt a val base } a)) :
    net.Steps W n op := by
  have hFirst :
      a = 0 → ∀ port ∈ net.ports, port.input ≠ .unset := by
    intro hZero
    apply hAllows.first
    rw [hWord, hZero]
  rcases @wordChange_sound W n a net val base hCount hSound ha hFirst with ⟨hSound', hShows⟩
  refine ⟨_, hStep, hSound', hWritten.symm, fun idx port hIdx hTimely => ?_⟩
  refine ⟨port.checkWordChange (net.arr.placedAt a val base) a, ?_, ?_⟩
  · show (net.ports.map _)[idx]? = _
    rw [List.getElem?_map, hIdx]
    rfl
  · apply hShows port (List.mem_of_getElem? hIdx)
    apply hTimely.started.imp_right
    grind

/- A step that writes nothing. -/
theorem steps_of_quiet (hSound : net.Sound W n) (hSends :
      ∀ idx port, op.Sends net.arr.words.length idx port →
        op.word net.arr.words.length = some port.addr)
    (hWord : op.word net.arr.words.length = none) (hStep : net.step op = some net) :
    net.Steps W n op := by
  refine ⟨net, hStep, hSound, ?_, fun idx port hIdx hTimely => ⟨port, hIdx, ?_⟩⟩
  · unfold ArrayOp.written
    rw [hWord]
  · apply (hSound.ports port (List.mem_of_getElem? hIdx)).shows
    apply hTimely.started.resolve_right
    grind

theorem setWord_steps {W n address partOff : Nat} {val : List VvpBit4}
    (hCount : n < 2 ^ 32) (hSound : net.Sound W n)
    (hAllows : net.Allows (.setWord address partOff val)) :
    net.Steps W n (.setWord address partOff val) := by
  have hLength := hSound.count
  by_cases hIn : address < net.arr.words.length
  · have hRun := VvpArray.setWord_takes hSound.fits hIn (hAllows.fits hIn)
    have hWord : (ArrayOp.setWord address partOff val).word net.arr.words.length = some address :=
      if_pos hIn
    apply steps_of_write hCount hSound hAllows (fun _ _ h => h) (by omega) hWord
    · unfold ArrayOp.written
      rw [hWord]
    · show net.setWord address partOff val = _
      unfold setWord
      rw [if_neg (Nat.not_le_of_lt hIn), hRun]
      rfl
  · refine steps_of_quiet hSound (fun _ _ h => h) ?_ ?_
    · exact if_neg hIn
    · exact if_pos (Nat.le_of_not_lt hIn)

/- A store to the word that the register names. -/
theorem ofStoreVec4A_named {arr : VvpArray} (hWidth : 0 < W) (hWidthSize : W < 2 ^ 31)
    (hPart : 0 < value.length) (hPartSize : value.length < 2 ^ 31)
    (hCount : arr.words.length < 2 ^ 32) (hFits : arr.Fits W)
    (hFlag : flag4 ≠ .one) (hLow : 0 ≤ adr) (hHigh : adr < arr.words.length)
    (hSafe : PartWrite.Safe (.storeVec4A arr.twoState) W value.length offset) :
    ofStoreVec4A arr flag4 adr offset value = some (arr.placedAt adr.toNat value offset) := by
  obtain ⟨a, hAdr⟩ := Int.eq_ofNat_of_zero_le hLow
  subst hAdr
  rw [ofStoreVec4A_write hWidthSize hFits hFlag (by omega)]
  exact VvpArray.write_of_places hWidth hPart hFits (by omega)
    (storePart_within hPartSize)
    ((storePart_places hWidth hPart hWidthSize hPartSize arr.twoState).mpr hSafe)

/- A store to no word. -/
theorem ofStoreVec4A_beyond {arr : VvpArray} (hWidthSize : W < 2 ^ 31)
    (hFits : arr.Fits W) (hFlag : flag4 ≠ .one) (hOut : arr.words.length ≤ toUnsigned adr)
    (hSome : storePart W value.length offset ≠ .fails) :
    ofStoreVec4A arr flag4 adr offset value = some arr := by
  have hCut : toUnsigned adr < 2 ^ 32 := by
    unfold toUnsigned
    omega
  rw [ofStoreVec4A_cut, ofStoreVec4A_write hWidthSize hFits hFlag hCut]
  cases hPart : storePart W value.length offset with
  | fails => exact absurd hPart hSome
  | nothing => rfl
  | part off skip =>
    exact if_pos hOut

theorem storeVec4A_steps (hWidth : 0 < W) (hWidthSize : W < 2 ^ 31)
    (hCount : n < 2 ^ 32) (hSound : net.Sound W n)
    (hAllows : net.Allows (.storeVec4A flag4 adr offset value)) :
    net.Steps W n (.storeVec4A flag4 adr offset value) := by
  have hLength := hSound.count
  have hWordOf :
      flag4 ≠ .one →
        (ArrayOp.storeVec4A flag4 adr offset value).word net.arr.words.length =
          registerWord net.arr.words.length adr :=
    fun hFlag => if_neg hFlag
  by_cases hFlag : flag4 = .one
  · refine steps_of_quiet hSound (fun _ _ h => h) ?_ ?_
    · exact if_pos hFlag
    · have hRun : ofStoreVec4A net.arr flag4 adr offset value = some net.arr :=
        if_pos hFlag
      show net.storeVec4A flag4 adr offset value = some net
      unfold storeVec4A
      rw [hRun]
      exact if_pos (Or.inl hFlag)
  · rcases hAllows.fits.resolve_left hFlag with ⟨hPart, hPartSize, hStore⟩
    rcases hStore with ⟨hLow, hHigh, hSafe⟩ | ⟨hOut, hSome⟩
    · have hAdr : toUnsigned adr = adr.toNat :=
        toUnsigned_of_small hLow (by omega)
      have hWord := hWordOf hFlag
      have hNamed : registerWord net.arr.words.length adr = some adr.toNat := if_pos ⟨hLow, hHigh⟩
      rw [hSound.fits.width] at hSafe
      have hRun := ofStoreVec4A_named hWidth hWidthSize hPart
        hPartSize (by omega) hSound.fits hFlag hLow hHigh hSafe
      rw [hNamed] at hWord
      apply steps_of_write hCount hSound hAllows (fun _ _ h => h) (by omega) hWord
      · unfold ArrayOp.written
        rw [hWord]
      · show net.storeVec4A flag4 adr offset value = _
        have hSeen :
            ¬ (flag4 = .one ∨
              net.arr.words.length ≤ adr.toNat) := by grind
        unfold storeVec4A
        rw [hRun, hAdr]
        exact if_neg hSeen
    · have hWord := hWordOf hFlag
      rw [registerWord_eq (by omega) (Or.inr hOut), if_neg (Nat.not_lt_of_le hOut)] at hWord
      refine steps_of_quiet hSound (fun _ _ h => h) hWord ?_
      rw [hSound.fits.width] at hSome
      have hRun := ofStoreVec4A_beyond hWidthSize hSound.fits hFlag hOut hSome
      show net.storeVec4A flag4 adr offset value = some net
      unfold storeVec4A
      rw [hRun]
      exact if_pos (Or.inr hOut)

/- One step of what is allowed. -/
theorem step_sound (hWidth : 0 < W) (hWidthSize : W < 2 ^ 31)
    (hCount : n < 2 ^ 32) (hSound : net.Sound W n) (hAllows : net.Allows op) :
    net.Steps W n op := by
  cases op with
  | initPropagate k =>
    refine steps_of_modify (k := k) hSound rfl (fun _ _ hSend => False.elim hSend) rfl ?_
    intro port hMem
    rcases ArrayPort.initPropagate_watches (hSound.ports port hMem) with ⟨hWatches, hShows⟩
    refine ⟨hWatches, fun hTimely => hShows (hTimely.pending rfl) ?_⟩
    exact hTimely.started.resolve_right id
  | recvVec4 k bit =>
    refine steps_of_modify (k := k) hSound rfl (fun _ _ hSend => hSend) rfl ?_
    intro port _
    have hFits : (AddressInput.vec4 bit).Fits net.arr.words.length := hAllows.fits
    rcases ArrayPort.recvVec4_shows (by rw [hSound.count]; exact hCount) hFits with
      ⟨hWatches, hShows⟩
    exact ⟨hWatches, fun _ => hShows⟩
  | setWord address partOff val => exact setWord_steps hCount hSound hAllows
  | storeVec4A flag4 adr offset value =>
    exact storeVec4A_steps hWidth hWidthSize hCount hSound hAllows

/- What a register reads. -/
theorem loadVec4A_eq (hCount : n < 2 ^ 32) (hSound : net.Sound W n) (hFits : RegisterFits n adr)
    (hFlag : flag4 ≠ .one) :
    net.loadVec4A flag4 adr =
      match registerWord n adr with
      | some a => net.arr.getWord a
      | none => List.replicate W .x := by
  unfold loadVec4A
  rw [if_neg hFlag, registerWord_eq hCount hFits]
  by_cases hIn : toUnsigned adr < n
  · rw [if_pos hIn]
  · rw [if_neg hIn, ← hSound.fits.width]
    apply ArrayPort.getWord_beyond
    rw [hSound.count]
    exact Nat.le_of_not_lt hIn

end ArrayNet

/- An array with ports after steps that are allowed. -/
inductive ArrayRun (W n : Nat) (twoState : Bool)
    (inputs : List AddressInput) : ArrayNet → Prop where
| start :
    ArrayRun W n twoState inputs (ArrayNet.create W n twoState inputs)
| step {net net' : ArrayNet} {op : ArrayOp}
    (hRun : ArrayRun W n twoState inputs net) (hAllows : net.Allows op)
    (hStep : net.step op = some net') :
    ArrayRun W n twoState inputs net'

theorem ArrayRun.sound {W n : Nat} {twoState : Bool} {inputs : List AddressInput}
    {net : ArrayNet} (hWidth : 0 < W) (hWidthSize : W < 2 ^ 31) (hCount : n < 2 ^ 32)
    (hInputs : ∀ input ∈ inputs, input.Fits n ∧ ∀ bit, input ≠ .vec4 bit)
    (hRun : ArrayRun W n twoState inputs net) : net.Sound W n := by
  induction hRun with
  | start => exact ArrayNet.create_sound hCount hInputs
  | step hRun hAllows hStep ih =>
    rcases ArrayNet.step_sound hWidth hWidthSize hCount ih hAllows with
      ⟨net', hStep', hSound, hRest⟩
    grind

/-
  After every allowed step of a run each port shows its word,
  unless it keeps or is sent an initial value that is not its
  word; the step has written what it was to write, and a
  register reads the word it names.
-/
theorem array_port_shows (W n : Nat) (twoState : Bool) (inputs : List AddressInput)
    (net : ArrayNet) (hWidth : 0 < W) (hWidthSize : W < 2 ^ 31) (hCount : n < 2 ^ 32)
    (hInputs : ∀ input ∈ inputs, input.Fits n ∧ ∀ bit, input ≠ .vec4 bit)
    (hRun : ArrayRun W n twoState inputs net) :
    (∀ op, net.Allows op →
      ∃ net',
        net.step op = some net' ∧
        net'.arr = op.written net.arr ∧
        ∀ idx port, net.ports[idx]? = some port → op.Timely net.arr idx port →
          ∃ port', net'.ports[idx]? = some port' ∧ port'.Shows net'.arr) ∧
    (∀ flag4 adr,
      flag4 ≠ VvpBit4.one →
      RegisterFits n adr →
      net.loadVec4A flag4 adr =
        match registerWord n adr with
        | some a => net.arr.getWord a
        | none => List.replicate W .x) := by
  have hSound := hRun.sound hWidth hWidthSize hCount hInputs
  constructor
  · intro op hAllows
    rcases ArrayNet.step_sound hWidth hWidthSize hCount hSound hAllows with
      ⟨net', hStep, hSound', hWritten, hShows⟩
    exact ⟨net', hStep, hWritten, hShows⟩
  · intro flag4 adr hFlag hFits
    exact ArrayNet.loadVec4A_eq hCount hSound hFits hFlag

/- The port of an array of two-state words: its initial 0.0
   goes out, then its address arrives. -/
theorem array_port_shows_first :
    ∃ net net' port,
      (ArrayNet.create 2 2 true [.unset]).step (.initPropagate 0) = some net ∧
      net.step (.recvVec4 0 [.one, .zero]) = some net' ∧
      net'.ports[0]? = some port ∧ port.Shows net'.arr := by
  have hInputs :
      ∀ input ∈ [AddressInput.unset],
        input.Fits 2 ∧ ∀ bit, input ≠ .vec4 bit := by
    intro input hMem
    rw [List.mem_singleton.mp hMem]
    exact ⟨trivial, fun bit h => by cases h⟩
  have hInit : (ArrayNet.create 2 2 true [.unset]).Allows (.initPropagate 0) :=
    ⟨trivial, fun h => by cases h⟩
  have hRun := ArrayRun.step (@ArrayRun.start 2 2 true [.unset]) hInit rfl
  rcases (array_port_shows 2 2 true [.unset] _ (by decide)
      (by decide) (by decide) hInputs hRun).1 (.recvVec4 0 [.one, .zero])
      ⟨fun number hNumber => by
        have hOne : some 1 = some number := hNumber
        rw [← Option.some.inj hOne]
        exact Or.inl (by decide), fun h => by cases h⟩ with
    ⟨net', hStep, -, hShows⟩
  rcases hShows 0 _ rfl ⟨(fun h => by cases h), Or.inr rfl⟩ with ⟨port, hPort, hShown⟩
  exact ⟨_, net', port, rfl, hStep, hPort, hShown⟩

/-
  An address of two to the 32 and one shows the second word,
  and so does a register that holds it.
-/
theorem array_port_wraps :
    vectorNumber (.one :: List.replicate 31 .zero ++ [.one]) = some (2 ^ 32 + 1) ∧
      (((ArrayNet.create 1 2 false [.unset]).step
        (.setWord 1 0 [.one])).bind fun net =>
          (net.step (.recvVec4 0
            (.one :: List.replicate 31 .zero ++ [.one]))).map
              fun net' =>
                (net'.ports.map ArrayPort.sent,
                  net'.arr.shown (.vec4 (.one :: List.replicate 31 .zero ++ [.one])),
                  net'.loadVec4A .zero (2 ^ 32 + 1))) =
        some ([.word [.one]], [.x], [.one]) :=
  ⟨by decide, by decide⟩

end EpicSim
