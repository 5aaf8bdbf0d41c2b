import EpicSim.Vvp.Resolver

/-
  When the order of the drivers of a net matters.
-/

----
-- Commutativity
----

namespace EpicSim

namespace VvpScalar

theorem widen_comm (a b : BitVec 8) : widen a b = widen b a := by
  have hHigh :
      max (max (max (signed1 a) (signed0 a)) (signed1 b)) (signed0 b) =
        max (max (max (signed1 b) (signed0 b)) (signed1 a)) (signed0 a) := by
    omega
  have hLow :
      min (min (min (signed0 a) (signed1 a)) (signed1 b)) (signed0 b) =
        min (min (min (signed0 b) (signed1 b)) (signed1 a)) (signed0 a) := by
    omega
  unfold widen
  simp only [hHigh, hLow, BitVec.and_comm a b]

/- Equal low strengths of unambiguous bytes are equal twice. -/
theorem unambig_strengths {a b : BitVec 8} (ha : unambig a = true) (hb : unambig b = true) :
    b &&& 0x77#8 = a &&& 0x77#8 ↔
      a &&& 0x07#8 = b &&& 0x07#8 := by
  have hByte :
      ∀ byte : Fin 256,
        unambig ⟨byte⟩ = true →
          (⟨byte⟩ : BitVec 8) &&& 0x77#8 = (⟨byte⟩ &&& 0x07#8) ||| ((⟨byte⟩ &&& 0x07#8) <<< 4) := by
    decide +kernel
  have hLow :
      ∀ v : BitVec 8,
        v &&& 0x07#8 = (v &&& 0x77#8) &&& 0x07#8 := by
    intro v
    rw [BitVec.and_assoc]
    rfl
  constructor
  · intro h
    rw [hLow a, hLow b, h]
  · intro h
    rw [hByte a.toFin ha, hByte b.toFin hb]
    rw [h]

theorem lt_or_eq_or_lt (u v : BitVec 8) :
    u < v ∧ ¬v < u ∧ u ≠ v ∨ u = v ∨
      v < u ∧ ¬u < v ∧ u ≠ v := by
  bv_omega

theorem fullyFeaturedResolv_comm (a b : VvpScalar) :
    fullyFeaturedResolv a b = fullyFeaturedResolv b a := by
  unfold fullyFeaturedResolv
  cases ha : unambig a.value_ with
  | true =>
    cases hb : unambig b.value_ with
    | true =>
      simp only [Bool.and_self, if_true]
      rcases lt_or_eq_or_lt (a.value_ &&& 0x07#8) (b.value_ &&& 0x07#8) with
        ⟨hLt, hNotGt, hDiff⟩ | hEq | ⟨hGt, hNotLt, hDiff⟩
      · have hNe :
            ¬a.value_ &&& 0x77#8 = b.value_ &&& 0x77#8 := by
          rw [unambig_strengths hb ha]
          exact Ne.symm hDiff
        rw [if_pos hLt, if_neg hNotGt, if_neg hNe]
      · have hBoth := (unambig_strengths ha hb).mpr hEq
        have hIrrefl : ¬b.value_ &&& 0x07#8 < b.value_ &&& 0x07#8 := BitVec.lt_irrefl _
        rw [hEq, if_neg hIrrefl, if_pos hBoth, if_neg hIrrefl, if_pos hBoth.symm, hBoth]
      · have hNe :
            ¬b.value_ &&& 0x77#8 = a.value_ &&& 0x77#8 := by
          rw [unambig_strengths ha hb]
          exact hDiff
        rw [if_neg hNotLt, if_neg hNe, if_pos hGt]
    | false => simp
  | false =>
    cases hb : unambig b.value_ with
    | true => simp
    | false => simp [widen_comm a.value_]

/- Resolution is commutative, up to the encoding of HiZ. -/
theorem resolve_comm (a b : VvpScalar) : (resolve a b).canon = (resolve b a).canon := by
  unfold resolve
  cases ha : a.isHiz with
  | true =>
    cases hb : b.isHiz with
    | true => simp [canon_of_isHiz ha, canon_of_isHiz hb]
    | false => simp
  | false =>
    cases hb : b.isHiz with
    | true => simp
    | false =>
      simp only [Bool.false_eq_true, if_false]
      by_cases hEq : a = b
      · rw [if_pos hEq, if_pos hEq.symm, hEq]
      · rw [if_neg hEq, if_neg (Ne.symm hEq), fullyFeaturedResolv_comm]

/- Only the resolved value of HiZ depends on its encoding. -/
theorem canon_resolve_canon (a b : VvpScalar) :
    (resolve a.canon b.canon).canon = (resolve a b).canon := by
  cases ha : a.isHiz with
  | true =>
    have haCanon : a.canon.isHiz = true := by rw [isHiz_canon, ha]
    rw [resolve_of_isHiz_left _ haCanon, resolve_of_isHiz_left _ ha, canon_canon]
  | false =>
    cases hb : b.isHiz with
    | true =>
      have haCanon : a.canon.isHiz = false := by rw [isHiz_canon, ha]
      have hbCanon : b.canon.isHiz = true := by rw [isHiz_canon, hb]
      rw [resolve_of_isHiz_right haCanon hbCanon, resolve_of_isHiz_right ha hb, canon_canon]
    | false => rw [canon_of_not_isHiz ha, canon_of_not_isHiz hb]

end VvpScalar

----
-- Families Without Undercuts
----

namespace VvpScalar

/- No drive of the family undercuts another. -/
def UndercutFree (V : Set VvpScalar) : Prop :=
  ∀ x ∈ V, ∀ u ∈ V, ¬Undercut x u

/- What resolution builds from HiZ and a family of drives. -/
inductive Built (V : Set VvpScalar) : VvpScalar → Prop where
| hiz : Built V hiz
| drive {a : VvpScalar} : a ∈ V → Built V a
| resolve {a b : VvpScalar} :
    Built V a → Built V b → Built V (resolve a b)

/- One coordinate of a summary comes from a drive below it. -/
def AttainedBy (V : Set VvpScalar) (f : Drive → Fin 8) (d : Drive) : Prop :=
  f d = 0 ∨ ∃ v ∈ V, f v.drive = f d ∧ v.drive ≤ d

/- Every coordinate of a summary comes from a drive below it. -/
structure Attained (V : Set VvpScalar) (d : Drive) : Prop where
  toward0 : AttainedBy V (fun d => d.1) d
  toward1 : AttainedBy V (fun d => d.2.1) d
  unambiguous : AttainedBy V (fun d => d.2.2) d

variable {V : Set VvpScalar} {v : VvpScalar}

variable {d e : Drive} {a : VvpScalar}

theorem attainedBy_sup {f : Drive → Fin 8}
    (hSup : f (d ⊔ e) = max (f d) (f e)) (hd : AttainedBy V f d) (he : AttainedBy V f e) :
    AttainedBy V f (d ⊔ e) := by
  rcases max_choice (f d) (f e) with hMax | hMax
  · rcases hd with hZero | ⟨v, hv, hEq, hLe⟩
    · left
      rw [hSup, hMax, hZero]
    · right
      refine ⟨v, hv, ?_, le_sup_of_le_left hLe⟩
      rw [hSup, hMax, hEq]
  · rcases he with hZero | ⟨v, hv, hEq, hLe⟩
    · left
      rw [hSup, hMax, hZero]
    · right
      refine ⟨v, hv, ?_, le_sup_of_le_right hLe⟩
      rw [hSup, hMax, hEq]

theorem attained_sup (hd : Attained V d) (he : Attained V e) :
    Attained V (d ⊔ e) where
  toward0 := attainedBy_sup rfl hd.toward0 he.toward0
  toward1 := attainedBy_sup rfl hd.toward1 he.toward1
  unambiguous := attainedBy_sup rfl hd.unambiguous he.unambiguous

theorem attained_drive (hv : v ∈ V) : Attained V v.drive where
  toward0 := Or.inr ⟨v, hv, rfl, le_rfl⟩
  toward1 := Or.inr ⟨v, hv, rfl, le_rfl⟩
  unambiguous := Or.inr ⟨v, hv, rfl, le_rfl⟩

theorem attained_hiz (V : Set VvpScalar) : Attained V hiz.drive where
  toward0 := Or.inl rfl
  toward1 := Or.inl rfl
  unambiguous := Or.inl rfl

theorem drive_of_zero (h : v.value = .zero) : v.drive = (v.strength0, 0, v.strength0) := by
  rw [drive, h]

theorem drive_of_one (h : v.value = .one) : v.drive = (0, v.strength1, v.strength1) := by
  rw [drive, h]

theorem drive_of_x (h : v.value = .x) : v.drive = (v.strength0, v.strength1, 0) := by
  rw [drive, h]

theorem drive_of_z (h : v.value = .z) : v.drive = (0, 0, 0) := by
  rw [drive, h]

/- An attained summary of an undercut-free family is clean. -/
theorem clean_of_attained (hFree : UndercutFree V) (hd : Attained V d) : d.Clean := by
  rcases d with ⟨s0, s1, t⟩
  rcases hd with ⟨hZero, hOne, hUnamb⟩
  simp only [AttainedBy] at hZero hOne hUnamb
  rcases hUnamb with hNone | ⟨u, hu, huEq, huLe⟩
  · subst hNone
    refine ⟨Fin.zero_le _, ?_, ?_⟩
    · exact fun h => absurd h.1 (not_lt_of_ge (Fin.zero_le _))
    · exact fun h => absurd h.1 (not_lt_of_ge (Fin.zero_le _))
  · cases hValue : u.value with
    | z =>
      rw [drive_of_z hValue] at huEq
      subst huEq
      refine ⟨Fin.zero_le _, ?_, ?_⟩
      · exact fun h => absurd h.1 (not_lt_of_ge (Fin.zero_le _))
      · exact fun h => absurd h.1 (not_lt_of_ge (Fin.zero_le _))
    | x =>
      rw [drive_of_x hValue] at huEq
      subst huEq
      refine ⟨Fin.zero_le _, ?_, ?_⟩
      · exact fun h => absurd h.1 (not_lt_of_ge (Fin.zero_le _))
      · exact fun h => absurd h.1 (not_lt_of_ge (Fin.zero_le _))
    | zero =>
      rw [drive_of_zero hValue] at huEq huLe
      simp only [Prod.mk_le_mk] at huEq huLe
      refine ⟨le_trans (le_of_eq huEq.symm) (le_trans huLe.1 (le_max_left _ _)), ?_, ?_⟩
      · rintro ⟨hLow, hHigh⟩
        -- the stronger side comes from an ambiguous drive
        rcases hZero with hZero | ⟨v, hv, hvEq, hvLe⟩
        · grind
        · have hSide : v.value = .x ∧ v.strength1 ≤ s1 ∧
              v.strength0 = s0 := by
            cases hv' : v.value <;>
              simp [drive, Prod.le_def] at hvEq hvLe <;>
              grind
          refine hFree v hv u hu ⟨hSide.1, Or.inl ⟨hValue, ?_, ?_⟩⟩
          · rw [huEq]
            exact lt_of_le_of_lt hSide.2.1 hLow
          · rw [huEq, hSide.2.2]
            exact hHigh
      · grind
    | one =>
      rw [drive_of_one hValue] at huEq huLe
      simp only [Prod.mk_le_mk] at huEq huLe
      refine ⟨le_trans (le_of_eq huEq.symm) (le_trans huLe.2.1 (le_max_right _ _)), ?_, ?_⟩
      · grind
      · rintro ⟨hLow, hHigh⟩
        rcases hOne with hOne | ⟨v, hv, hvEq, hvLe⟩
        · grind
        · have hSide : v.value = .x ∧ v.strength0 ≤ s0 ∧
              v.strength1 = s1 := by
            cases hv' : v.value <;>
              simp [drive, Prod.le_def] at hvEq hvLe <;>
              grind
          refine hFree v hv u hu ⟨hSide.1, Or.inr ⟨hValue, ?_, ?_⟩⟩
          · rw [huEq]
            exact lt_of_le_of_lt hSide.2.1 hLow
          · rw [huEq, hSide.2.2]
            exact hHigh

/- A driver value is read back from its summary. -/
theorem canon_of_isDriver (ha : a.IsDriver) : a.canon = a.drive.settle := by
  rcases ha with ⟨val, str0, str1, rfl⟩
  have hZero : ∀ str0 str1 : Fin 8,
      (ofBit .zero str0 str1).canon = (ofBit .zero str0 str1).drive.settle := by
    decide +kernel
  have hOne : ∀ str0 str1 : Fin 8,
      (ofBit .one str0 str1).canon = (ofBit .one str0 str1).drive.settle := by
    decide +kernel
  have hX : ∀ str0 str1 : Fin 8,
      (ofBit .x str0 str1).canon = (ofBit .x str0 str1).drive.settle := by
    decide +kernel
  have hZ : ∀ str0 str1 : Fin 8,
      (ofBit .z str0 str1).canon = (ofBit .z str0 str1).drive.settle := by
    decide +kernel
  cases val with
  | zero => exact hZero str0 str1
  | one => exact hOne str0 str1
  | x => exact hX str0 str1
  | z => exact hZ str0 str1

/- The scalar `a` stands for the attained summary `d`. -/
def Summary (V : Set VvpScalar) (a : VvpScalar) (d : Drive) : Prop :=
  Attained V d ∧ a.canon = d.settle

/- Resolving scalars joins their summaries. -/
theorem summary_resolve (hFree : UndercutFree V) {b : VvpScalar}
    (ha : Summary V a d) (hb : Summary V b e) : Summary V (resolve a b) (d ⊔ e) := by
  have hJoin := attained_sup ha.1 hb.1
  have hClean := clean_of_attained hFree hJoin
  refine ⟨hJoin, ?_⟩
  rw [← canon_resolve_canon, ha.2, hb.2,
    Drive.resolve_settle (clean_of_attained hFree ha.1) (clean_of_attained hFree hb.1) hClean,
    Drive.canon_settle hClean]

/- Every built scalar stands for some attained summary. -/
theorem exists_summary_of_built
    (hDrivers : ∀ v ∈ V, v.IsDriver) (hFree : UndercutFree V) (ha : Built V a) :
    ∃ d, Summary V a d := by
  induction ha with
  | hiz => exact ⟨hiz.drive, attained_hiz V, by decide⟩
  | drive hMem => exact ⟨_, attained_drive hMem, canon_of_isDriver (hDrivers _ hMem)⟩
  | resolve _ _ iha ihb =>
    rcases iha with ⟨d, hd⟩
    rcases ihb with ⟨e, he⟩
    exact ⟨d ⊔ e, summary_resolve hFree hd he⟩

/- Resolution is associative on an undercut-free family. -/
theorem resolve_assoc (hDrivers : ∀ v ∈ V, v.IsDriver) (hFree : UndercutFree V)
    {b c : VvpScalar} (ha : Built V a) (hb : Built V b) (hc : Built V c) :
    (resolve (resolve a b) c).canon = (resolve a (resolve b c)).canon := by
  rcases exists_summary_of_built hDrivers hFree ha with ⟨d, hd⟩
  rcases exists_summary_of_built hDrivers hFree hb with ⟨e, he⟩
  rcases exists_summary_of_built hDrivers hFree hc with ⟨f, hf⟩
  have hLeft := summary_resolve hFree (summary_resolve hFree hd he) hf
  have hRight := summary_resolve hFree hd (summary_resolve hFree he hf)
  rw [hLeft.2, hRight.2, sup_assoc]

/- An undercut makes the order of three drives matter. -/
theorem resolve_undercut {x u : VvpScalar} (hx : x.IsDriver) (hu : u.IsDriver) (h : Undercut x u) :
    (resolve (resolve x x) u).canon ≠ (resolve (resolve x u) x).canon := by
  rcases hx with ⟨valx, x0, x1, rfl⟩
  rcases hu with ⟨valu, u0, u1, rfl⟩
  have hAmbiguous : ∀ x0 x1 : Fin 8,
      (ofBit .zero x0 x1).value ≠ .x ∧
        (ofBit .one x0 x1).value ≠ .x ∧
        (ofBit .z x0 x1).value ≠ .x := by
    decide +kernel
  have hZero : ∀ x0 x1 u0 : Fin 8,
      Undercut (ofBit .x x0 x1) (def0 u0) →
        (resolve (resolve (ofBit .x x0 x1) (ofBit .x x0 x1)) (def0 u0)).canon ≠
          (resolve (resolve (ofBit .x x0 x1) (def0 u0)) (ofBit .x x0 x1)).canon := by
    decide +kernel
  have hOne : ∀ x0 x1 u1 : Fin 8,
      Undercut (ofBit .x x0 x1) (def1 u1) →
        (resolve (resolve (ofBit .x x0 x1) (ofBit .x x0 x1)) (def1 u1)).canon ≠
          (resolve (resolve (ofBit .x x0 x1) (def1 u1)) (ofBit .x x0 x1)).canon := by
    decide +kernel
  have hUnamb : ∀ u0 u1 : Fin 8,
      ((ofBit .x u0 u1).value ≠ .zero ∧
          (ofBit .x u0 u1).value ≠ .one ∧
          (ofBit .z u0 u1).value ≠ .zero ∧
          (ofBit .z u0 u1).value ≠ .one) ∧
        ((ofBit .zero u0 u1).value ≠ .one ∧
          ((ofBit .zero u0 u1).value = .zero → ofBit .zero u0 u1 = def0 u0)) ∧
        ((ofBit .one u0 u1).value ≠ .zero ∧
          ((ofBit .one u0 u1).value = .one →
            ofBit .one u0 u1 = def1 u1)) := by
    decide +kernel
  have hxVal : valx = .x := by
    cases valx with
    | zero => exact absurd h.1 (hAmbiguous x0 x1).1
    | one => exact absurd h.1 (hAmbiguous x0 x1).2.1
    | z => exact absurd h.1 (hAmbiguous x0 x1).2.2
    | x => rfl
  subst hxVal
  rcases hUnamb u0 u1 with ⟨⟨h1, h2, h3, h4⟩, ⟨h5, h6⟩, h7, h8⟩
  cases valu with
  | zero =>
    have hEq : ofBit .zero u0 u1 = def0 u0 := by
      rcases h.2 with hSide | hSide
      · exact h6 hSide.1
      · exact absurd hSide.1 h5
    rw [hEq] at h ⊢
    exact hZero x0 x1 u0 h
  | one =>
    have hEq : ofBit .one u0 u1 = def1 u1 := by
      rcases h.2 with hSide | hSide
      · exact absurd hSide.1 h7
      · exact h8 hSide.1
    rw [hEq] at h ⊢
    exact hOne x0 x1 u1 h
  | x =>
    rcases h.2 with hSide | hSide
    · exact absurd hSide.1 h1
    · exact absurd hSide.1 h2
  | z =>
    rcases h.2 with hSide | hSide
    · exact absurd hSide.1 h3
    · exact absurd hSide.1 h4

end VvpScalar

----
-- Vectors
----

open QuaternaryTree

/- A nil port, or one whose bits are built lane by lane. -/
def PortBuilt (width : Nat) (V : Nat → Set VvpScalar) (v : VvpVector8) : Prop :=
  v = VvpVector8.nil ∨ v.size = width ∧ ∀ i < width, VvpScalar.Built (V i) (v.value i)

/- A vector and the summaries of its lanes; nil has none. -/
def LaneSummary (width : Nat) (V : Nat → Set VvpScalar) (v : VvpVector8)
    (x : WithBot (Nat → Drive)) : Prop :=
  v = VvpVector8.nil ∧ x = ⊥ ∨
    ∃ d : Nat → Drive,
      x = d ∧ v.size = width ∧ ∀ i < width, VvpScalar.Summary (V i) (v.value i) (d i)

namespace VvpVector8

theorem value_resolve {a b : VvpVector8} {width : Nat} (ha : a.size = width)
    (hb : b.size = width) {i : Nat} (hi : i < width) :
    (resolve a b).value i = VvpScalar.resolve (a.value i) (b.value i) := by
  simp only [size] at ha hb
  have hLength : i < (resolve a b).length := by
    rw [resolve_length]
    omega
  rw [value_of_lt hLength, value_of_lt (by omega), value_of_lt (by omega)]
  simp [resolve]

/- Mapped vectors are equal when their lanes are. -/
theorem map_eq_iff {a b : VvpVector8} {f : VvpScalar → VvpScalar}
    (hSize : a.size = b.size) :
    a.map f = b.map f ↔ ∀ i < a.size, f (a.value i) = f (b.value i) := by
  constructor
  · intro h i hi
    have hib : i < b.length := lt_of_lt_of_eq hi hSize
    have hLane := congrArg (fun v : VvpVector8 => v[i]?) h
    simp only [List.getElem?_map, List.getElem?_eq_getElem hi,
      List.getElem?_eq_getElem hib, Option.map_some, Option.some_inj] at hLane
    rw [value_of_lt hi, value_of_lt hib, hLane]
  · intro h
    apply List.ext_getElem
    · simpa [size] using hSize
    · intro i hi hi'
      rw [List.length_map] at hi hi'
      rw [List.getElem_map, List.getElem_map, ← value_of_lt hi,
        ← value_of_lt hi', h i hi]

theorem map_canon_ext {a b : VvpVector8} (hSize : a.size = b.size)
    (hValue : ∀ i < a.size, (a.value i).canon = (b.value i).canon) :
    a.map VvpScalar.canon = b.map VvpScalar.canon :=
  (map_eq_iff hSize).mpr hValue

theorem value_map_canon (a : VvpVector8) (i : Nat) :
    VvpVector8.value (a.map VvpScalar.canon) i = (a.value i).canon := by
  have h := List.getD_map (d := VvpScalar.hiz) VvpScalar.canon (l := a) (n := i)
  exact h

end VvpVector8

variable {width : Nat} {V : Nat → Set VvpScalar}

theorem laneSummary_combine (hFree : ∀ i < width, VvpScalar.UndercutFree (V i))
    (a b : VvpVector8) (x y : WithBot (Nat → Drive))
    (ha : LaneSummary width V a x) (hb : LaneSummary width V b y) :
    LaneSummary width V (ResolvTri.combine a b) (x ⊔ y) := by
  unfold ResolvTri.combine
  rcases ha with ⟨rfl, rfl⟩ | ⟨d, rfl, haSize, haLanes⟩
  · rw [bot_sup_eq]
    split_ifs with hbNil haNil
    · rcases hb with ⟨-, rfl⟩ | ⟨e, rfl, hbSize, hbLanes⟩
      · exact Or.inl ⟨rfl, rfl⟩
      · right
        have hWidth : width = 0 := by rw [← hbSize, hbNil]
        exact ⟨e, rfl, by rw [hWidth]; rfl, by
          intro i hi
          omega⟩
    · exact hb
    · exact absurd rfl haNil
  · rcases hb with ⟨rfl, rfl⟩ | ⟨e, rfl, hbSize, hbLanes⟩
    · exact Or.inr ⟨d, rfl, haSize, haLanes⟩
    · right
      refine ⟨d ⊔ e, by rw [WithBot.coe_sup], ?_, ?_⟩
      · split_ifs
        · exact haSize
        · exact hbSize
        · simp only [VvpVector8.size] at *
          rw [VvpVector8.resolve_length]
          omega
      · intro i hi
        have hbNe : ¬b.size = 0 := by omega
        have haNe : ¬a.size = 0 := by omega
        rw [if_neg hbNe, if_neg haNe, VvpVector8.value_resolve haSize hbSize hi]
        exact VvpScalar.summary_resolve (hFree i hi) (haLanes i hi) (hbLanes i hi)

theorem exists_laneSummary (hDrivers : ∀ i < width, ∀ v ∈ V i, v.IsDriver)
    (hFree : ∀ i < width, VvpScalar.UndercutFree (V i)) {v : VvpVector8}
    (hv : PortBuilt width V v) : ∃ x, LaneSummary width V v x := by
  rcases hv with rfl | ⟨hSize, hBuilt⟩
  · exact ⟨⊥, Or.inl ⟨rfl, rfl⟩⟩
  · have hLanes :
        ∀ i, ∃ d, i < width →
          VvpScalar.Summary (V i) (v.value i) d := by
      intro i
      by_cases hi : i < width
      · rcases VvpScalar.exists_summary_of_built
          (hDrivers i hi) (hFree i hi) (hBuilt i hi) with ⟨d, hd⟩
        exact ⟨d, fun _ => hd⟩
      · exact ⟨⊥, fun h => absurd h hi⟩
    choose d hd using hLanes
    exact ⟨d, Or.inr ⟨d, rfl, hSize, hd⟩⟩

/- Vectors with one summary are equal up to HiZ encodings. -/
theorem map_canon_of_laneSummary {a b : VvpVector8} {x : WithBot (Nat → Drive)}
    (ha : LaneSummary width V a x) (hb : LaneSummary width V b x) :
    a.map VvpScalar.canon = b.map VvpScalar.canon := by
  rcases ha with ⟨rfl, rfl⟩ | ⟨d, rfl, haSize, haLanes⟩
  · rcases hb with ⟨rfl, -⟩ | ⟨e, hBot, -, -⟩
    · rfl
    · exact absurd hBot.symm (WithBot.coe_ne_bot)
  · rcases hb with ⟨-, hBot⟩ | ⟨e, hEq, hbSize, hbLanes⟩
    · exact absurd hBot (WithBot.coe_ne_bot)
    · have hSame : d = e := WithBot.coe_injective hEq
      subst hSame
      apply VvpVector8.map_canon_ext (by rw [haSize, hbSize])
      intro i hi
      rw [haSize] at hi
      rw [(haLanes i hi).2, (hbLanes i hi).2]

end EpicSim

----
-- Port Order
----

namespace EpicSim

open QuaternaryTree

open ResolvTri (combine resolved)

/-
  On vectors built lane by lane from the families, permuting
  the ports of a resolver changes the root at most in the
  encoding of HiZ.
-/
def PortOrderImmaterial (width : Nat) (V : Nat → Set VvpScalar) : Prop :=
  ∀ ports permuted : List VvpVector8,
    ports.Perm permuted →
    (∀ v ∈ ports, PortBuilt width V v) →
      (resolved ports).map VvpScalar.canon = (resolved permuted).map VvpScalar.canon

/- Resolution associates on what a family builds. -/
def ResolveAssociative (V : Set VvpScalar) : Prop :=
  ∀ a b c,
    VvpScalar.Built V a → VvpScalar.Built V b →
    VvpScalar.Built V c → ((a.resolve b).resolve c).canon = (a.resolve (b.resolve c)).canon

theorem resolveAssociative_iff {V : Set VvpScalar} (hDrivers : ∀ v ∈ V, v.IsDriver) :
    ResolveAssociative V ↔ VvpScalar.UndercutFree V := by
  constructor
  · intro hAssoc x hx u hu hUndercut
    apply VvpScalar.resolve_undercut (hDrivers x hx) (hDrivers u hu) hUndercut
    rw [hAssoc x x u (.drive hx) (.drive hx) (.drive hu)]
    exact VvpScalar.resolve_comm _ _
  · intro hFree a b c ha hb hc
    exact VvpScalar.resolve_assoc hDrivers hFree ha hb hc

variable {width i : Nat}

theorem portOrderImmaterial_of_undercutFree {V : Nat → Set VvpScalar}
    (hDrivers : ∀ i < width, ∀ v ∈ V i, v.IsDriver)
    (hFree : ∀ i < width, VvpScalar.UndercutFree (V i)) : PortOrderImmaterial width V := by
  intro ports permuted hPerm hBuilt
  by_cases hNil : ports = []
  · rw [hNil] at hPerm ⊢
    rw [hPerm.nil_eq]
  · have hNil' : permuted ≠ [] := by
      intro h
      rw [h] at hPerm
      exact hNil hPerm.eq_nil
    obtain ⟨root, hRoot⟩ := Option.isSome_iff_exists.mp (treeFold_isSome combine hNil)
    obtain ⟨root', hRoot'⟩ := Option.isSome_iff_exists.mp (treeFold_isSome combine hNil')
    rcases treeFold_perm (laneSummary_combine hFree) hPerm
        (fun v hv => exists_laneSummary hDrivers hFree (hBuilt v hv))
        hRoot hRoot' with ⟨x, hx, hx'⟩
    rw [resolved, resolved, hRoot, hRoot']
    exact map_canon_of_laneSummary hx hx'

/- A vector with one driven bit. -/
def laneOf (width i : Nat) (s : VvpScalar) : VvpVector8 :=
  (List.replicate width VvpScalar.hiz).set i s

theorem portBuilt_laneOf {V : Nat → Set VvpScalar} {s : VvpScalar}
    (hs : VvpScalar.Built (V i) s) : PortBuilt width V (laneOf width i s) := by
  right
  refine ⟨by simp [laneOf, VvpVector8.size], ?_⟩
  intro j hj
  have hLength : j < (laneOf width i s).length := by simpa [laneOf] using hj
  rw [VvpVector8.value_of_lt hLength]
  by_cases hEq : i = j
  · subst hEq
    simpa [laneOf] using hs
  · simpa [laneOf, hEq] using VvpScalar.Built.hiz

theorem value_laneOf (hi : i < width) (s : VvpScalar) :
    (laneOf width i s).value i = s := by
  have hLength : i < (laneOf width i s).length := by simpa [laneOf] using hi
  rw [VvpVector8.value_of_lt hLength]
  simp [laneOf]

/- Three driven ports form one group. -/
theorem value_resolved_three {a b c : VvpVector8} (ha : a.size = width)
    (hb : b.size = width) (hc : c.size = width) (hi : i < width) :
    (resolved [a, b, c]).value i = ((a.value i).resolve (b.value i)).resolve (c.value i) := by
  have hab : (VvpVector8.resolve a b).size = width := by
    simp only [VvpVector8.size] at *
    rw [VvpVector8.resolve_length]
    omega
  have hCombine : combine (combine a b) c = VvpVector8.resolve (VvpVector8.resolve a b) c := by
    have hFirst : combine a b = VvpVector8.resolve a b := by
      rw [combine, if_neg (by omega), if_neg (by omega)]
    rw [hFirst, combine, if_neg (by omega), if_neg (by omega)]
  have hLevel : level combine [a, b, c] = [combine (combine a b) c] := by simp [level]
  rw [ResolvTri.resolved_of_one_lt (by simp), hLevel, ResolvTri.resolved_singleton,
    hCombine, VvpVector8.value_resolve hab hc hi, VvpVector8.value_resolve ha hb hi]

/-
  Driver order: on the families of drives that can meet on
  the bits of a net the order of the ports is immaterial,
  for every number of ports, exactly when no drive of a
  family undercuts another; then, and only then, resolution
  also associates on each bit.  It always commutes.
-/
theorem resolved_perm_iff (width : Nat) (V : Nat → Set VvpScalar)
    (hDrivers : ∀ i < width, ∀ v ∈ V i, v.IsDriver) :
    (PortOrderImmaterial width V ↔ ∀ i < width, VvpScalar.UndercutFree (V i)) ∧
      (∀ i < width, ResolveAssociative (V i) ↔ VvpScalar.UndercutFree (V i)) ∧
      ∀ a b : VvpScalar,
        (a.resolve b).canon = (b.resolve a).canon := by
  refine ⟨⟨?_, portOrderImmaterial_of_undercutFree hDrivers⟩,
    fun i hi => resolveAssociative_iff (hDrivers i hi), VvpScalar.resolve_comm⟩
  intro hOrder i hi x hx u hu hUndercut
  -- the ports x, x, u and x, u, x differ on lane `i`
  have hBuilt : ∀ s ∈ V i,
      PortBuilt width V (laneOf width i s) :=
    fun s hs => portBuilt_laneOf (.drive hs)
  have hSize : ∀ s, (laneOf width i s).size = width := by
    intro s
    simp [laneOf, VvpVector8.size]
  have hSame := hOrder
    [laneOf width i x, laneOf width i x, laneOf width i u]
    [laneOf width i x, laneOf width i u, laneOf width i x]
    (.cons _ (.swap _ _ _))
    (by simp [hBuilt x hx, hBuilt u hu])
  have hLane := congrArg (fun v : VvpVector8 => VvpVector8.value v i) hSame
  simp only [VvpVector8.value_map_canon] at hLane
  rw [value_resolved_three (hSize x) (hSize x) (hSize u) hi,
    value_resolved_three (hSize x) (hSize u) (hSize x) hi,
    value_laneOf hi, value_laneOf hi] at hLane
  exact VvpScalar.resolve_undercut (hDrivers i hi x hx) (hDrivers i hi u hu) hUndercut hLane

/- Drivers of one pair of equal strengths may meet freely. -/
theorem resolved_perm_strong :
    PortOrderImmaterial 1 (fun _ => {v | ∃ val, v = VvpScalar.ofBit val 6 6}) := by
  refine ((resolved_perm_iff 1 (fun _ => {v | ∃ val, v = VvpScalar.ofBit val 6 6}) ?_).1).mpr ?_
  · rintro i - v ⟨val, rfl⟩
    exact ⟨val, 6, 6, rfl⟩
  · rintro i - x ⟨valx, rfl⟩ u ⟨valu, rfl⟩
    cases valx <;> cases valu <;> decide

/-
  Two (strong0, weak1) drivers of x and a pull-down: the
  order of the ports decides between x and 0.
-/
theorem resolved_not_perm :
    ¬∀ ports permuted : List VvpVector8,
      ports.Perm permuted →
      (∀ v ∈ ports,
        v.size = 1 ∧ ∀ s ∈ v, VvpScalar.IsDriver s) →
        (resolved ports).map VvpScalar.value = (resolved permuted).map VvpScalar.value := by
  intro hOrder
  have hDriver : ∀ s ∈ [VvpScalar.amb 6 3, VvpScalar.def0 5],
      s.IsDriver := by
    intro s hs
    simp only [List.mem_cons, List.not_mem_nil, or_false] at hs
    rcases hs with rfl | rfl
    · exact ⟨.x, 6, 3, rfl⟩
    · exact ⟨.zero, 5, 5, rfl⟩
  have hSame := hOrder
    [[VvpScalar.amb 6 3], [VvpScalar.amb 6 3], [VvpScalar.def0 5]]
    [[VvpScalar.amb 6 3], [VvpScalar.def0 5], [VvpScalar.amb 6 3]]
    (.cons _ (.swap _ _ _))
    (by simpa [VvpVector8.size] using hDriver)
  have hRoot : ∀ a b c : VvpScalar,
      resolved [[a], [b], [c]] = [(a.resolve b).resolve c] := by
    intro a b c
    rw [ResolvTri.resolved_of_one_lt (by simp)]
    simp [level, combine, VvpVector8.size, VvpVector8.resolve]
  rw [hRoot, hRoot] at hSame
  exact absurd hSame (by decide)

end EpicSim
