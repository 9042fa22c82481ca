import Kobzar.Pidx.Visibility

/-!
# The branches of the visibility map compared

The scalar branch shows the records a transaction sees (`fallback_ok`). The 8-lane branch ends as well, but it
shows the records of the page with the two columns exchanged (`lanes8_ok`); the 4-lane and the 2-lane branch read a
vector past the end of the column on every page (`lanes4_panics`, `lanes2_panics`). So the branches agree exactly
where `withSimd_agrees_iff` says.
-/

namespace Kobzar.Pidx

open Loop Bits

/-! ## Vectors and masks -/

/-- The record at `p` passes both comparisons of a branch that bound its columns to `max` and `min`. -/
def selected (max min : List U64) (x : U64) (p : Nat) : Bool :=
  decide (x ≤ max.getD p 0) && decide (min.getD p 0 < x)

/-- A group that lies in the column is full. -/
theorem length_lanesAt {lanes i : Nat} {col : List U64} (h : (i + 1) * lanes ≤ col.length) :
    (lanesAt lanes col i).length = lanes := by
  simp only [lanesAt, List.length_take, List.length_drop]
  rw [Nat.add_mul] at h
  omega

/-- Lane `k` of group `i` is the value at `i * lanes + k`. -/
theorem getElem_lanesAt {lanes i k : Nat} {col : List U64} (hk : k < (lanesAt lanes col i).length) :
    (lanesAt lanes col i)[k] = col.getD (i * lanes + k) 0 := by
  have hlt : i * lanes + k < col.length := by
    simp only [lanesAt, List.length_take, List.length_drop] at hk
    omega
  rw [List.getD_eq_getElem _ _ hlt]
  simp [lanesAt]

/-- Group `i` of the column is read when the column reaches that far. -/
theorem index_asSimdU64s {simd : Simd} {col : List U64} {i : Nat} (h : i < col.length / simd.u64Lanes) :
    index (simd.asSimdU64s col).1 i = .ok (lanesAt simd.u64Lanes col i) := by
  rw [index_of_lt (by simpa [Simd.asSimdU64s] using h)]
  simp [Simd.asSimdU64s]

/-- Past the last group the read panics. -/
theorem index_asSimdU64s_of_le {simd : Simd} {col : List U64} {i : Nat} (h : col.length / simd.u64Lanes ≤ i) :
    index (simd.asSimdU64s col).1 i = .error .indexOutOfBounds :=
  index_of_le (by simpa [Simd.asSimdU64s] using h)

/-- A column that the width divides leaves nothing over. -/
theorem tail_asSimdU64s {simd : Simd} {col : List U64} (h : simd.u64Lanes ∣ col.length) :
    (simd.asSimdU64s col).2 = [] := by
  simp [Simd.asSimdU64s, Nat.div_mul_cancel h]

/-- Masks are combined lane by lane. -/
theorem maskLane_and (a b : Bool) : maskLane a &&& maskLane b = maskLane (a && b) := by
  cases a <;> cases b <;> simp [maskLane]

/-- The lanes of `and` are the masks of the records that pass both comparisons. -/
theorem and_lanesAt {lanes i : Nat} {max min : List U64} (x : U64) (hmax : (i + 1) * lanes ≤ max.length)
    (hmin : (i + 1) * lanes ≤ min.length) :
    and (lanesAt lanes max i) (lanesAt lanes min i) (List.replicate lanes x) =
      (List.range lanes).map (fun k => maskLane (selected max min x (i * lanes + k))) := by
  apply List.ext_getElem
  · simp [and, andM64s, greaterThanOrEqualU64s, lessThanU64s, length_lanesAt hmax, length_lanesAt hmin]
  · intro k hk hk'
    simp only [and, andM64s, greaterThanOrEqualU64s, lessThanU64s, List.getElem_zipWith, List.getElem_replicate,
      getElem_lanesAt, List.getElem_map, List.getElem_range, selected, maskLane_and]

/-- A mask of as many lanes as the array is cast lane by lane. -/
theorem cast_map_range (n : Nat) (f : Nat → U64) :
    cast n ((List.range n).map f) = .ok (Vector.ofFn (fun k : Fin n => f k)) := by
  unfold cast
  rw [dif_pos (by simp)]
  congr 1
  ext k hk
  simp

/-- Bit `k` of a packed byte is the mask of lane `k`. -/
theorem getLsbD_packByte (f : Nat → Bool) {k : Nat} (hk : k < 8) :
    (packByte (maskLane (f 0)) (maskLane (f 1)) (maskLane (f 2)) (maskLane (f 3)) (maskLane (f 4)) (maskLane (f 5))
      (maskLane (f 6)) (maskLane (f 7))).getLsbD k = f k := by
  have lane : ∀ (c : Bool) (j : Nat), j < 8 →
      (asU8 (maskLane c) &&& (1#8 <<< j)).getLsbD k = (c && decide (k = j)) := by
    intro c j hj
    cases c
    · simp [asU8, maskLane]
    · simp only [asU8, maskLane, if_true, BitVec.getLsbD_and, BitVec.getLsbD_setWidth, BitVec.getLsbD_allOnes,
        BitVec.getLsbD_shiftLeft, BitVec.getLsbD_one]
      rw [Bool.eq_iff_iff]
      simp
      omega
  simp only [packByte, BitVec.getLsbD_or, lane _ _ (by omega : 0 < 8), lane _ _ (by omega : 1 < 8),
    lane _ _ (by omega : 2 < 8),
    lane _ _ (by omega : 3 < 8), lane _ _ (by omega : 4 < 8), lane _ _ (by omega : 5 < 8), lane _ _ (by omega : 6 < 8),
    lane _ _ (by omega : 7 < 8)]
  interval_cases k <;> simp

/-! ## The branches, one at a time -/

/-- The columns as lists reach to the end of the page. -/
theorem length_column {α : Type} (col : Vector α pageSizeRecs) : col.toList.length = 4096 :=
  Vector.length_toList

/-- The records selected with the columns bound as the scalar branch binds them are the records the transaction sees. -/
theorem selected_eq_shows (page : Page) (x : U64) (i : Fin pageSizeRecs) :
    selected page.xmax.toList page.xmin.toList x i = decide (page.Shows x i) := by
  have hmax := List.getD_eq_getElem page.xmax.toList 0 (n := i) (by simp)
  have hmin := List.getD_eq_getElem page.xmin.toList 0 (n := i) (by simp)
  rw [selected, hmax, hmin, Bool.eq_iff_iff]
  simp [Page.Shows, and_comm]

/-- The map before the loop has a byte for every eight records. -/
@[simp] theorem length_emptyMap : emptyMap.length = 512 := List.length_replicate

/-- The map before the loop has no bit set. -/
@[simp] theorem bitAt_emptyMap (p : Nat) : bitAt emptyMap p = false := bitAt_replicate_zero _ _

/-- With the columns bound the other way round they are the records seen on the page with its columns exchanged. -/
theorem selected_eq_shows_exchanged (page : Page) (x : U64) (i : Fin pageSizeRecs) :
    selected page.xmin.toList page.xmax.toList x i = decide (page.exchanged.Shows x i) :=
  selected_eq_shows page.exchanged x i

/-- One pass of the scalar loop, on an index of the page. -/
theorem passScalar_eq (page : Page) (x : U64) {i : Nat} (hi : i < 4096) {map : List U8} (hm : map.length = 512) :
    passScalar page x i map = .ok (map.set (i / 8) (map.getD (i / 8) 0 |||
      if selected page.xmax.toList page.xmin.toList x i then 1#8 <<< (i % 8) else 0)) := by
  have hmax : i < page.xmax.toList.length := by rw [length_column]; exact hi
  have hmin : i < page.xmin.toList.length := by rw [length_column]; exact hi
  have hmap : i / 8 < map.length := by omega
  rw [selected, List.getD_eq_getElem _ _ hmax, List.getD_eq_getElem _ _ hmin, List.getD_eq_getElem _ _ hmap]
  simp only [passScalar, index_of_lt hmax, index_of_lt hmin, index_of_lt hmap, store_of_lt hmap, ok_bind]

/-- The pass sets the bit of its own record when it is selected and keeps the others. -/
theorem bitAt_passScalar {map : List U8} (hm : map.length = 512) {i : Nat} (hi : i < 4096) (c : Bool) (p : Nat) :
    bitAt (map.set (i / 8) (map.getD (i / 8) 0 ||| if c then 1#8 <<< (i % 8) else 0)) p =
      (bitAt map p || (decide (p = i) && c)) := by
  rw [bitAt_set (by omega)]
  by_cases hp : p / 8 = i / 8
  · rw [if_pos hp, BitVec.getLsbD_or, ← hp]
    congr 1
    cases c
    · simp
    · simp only [if_true, BitVec.getLsbD_shiftLeft, BitVec.getLsbD_one, Bool.and_true]
      rw [Bool.eq_iff_iff]
      simp
      omega
  · have hne : p ≠ i := fun h => hp (by rw [h])
    simp [hp, hne]

/-- The scalar branch ends, and bit `i` of its map is set exactly when the transaction sees record `i`. -/
theorem fallback_ok (page : Page) (x : U64) : ∃ map, fallback page x = .ok map ∧ map.length = 512 ∧
    ∀ p < pageSizeRecs, bitAt map p = selected page.xmax.toList page.xmin.toList x p := by
  obtain ⟨map, hrun, hlen, hbits⟩ := forRange_ok pageSizeRecs emptyMap (passScalar page x)
    (fun i map => map.length = 512 ∧
      ∀ p, bitAt map p = (decide (p < i) && selected page.xmax.toList page.xmin.toList x p))
    ⟨length_emptyMap, by simp⟩ (by
      intro i hi map hI
      obtain ⟨hm, hb⟩ := hI
      refine ⟨_, passScalar_eq page x hi hm, by simpa using hm, ?_⟩
      intro p
      rw [bitAt_passScalar hm hi, hb]
      by_cases hlt : p < i
      · have hne : p ≠ i := by omega
        simp [hlt, hne, Nat.lt_succ_of_lt hlt]
      · by_cases heq : p = i
        · simp [heq]
        · have hge : ¬p < i + 1 := by omega
          simp [hlt, heq, hge])
  refine ⟨map, hrun, hlen, ?_⟩
  intro p hp
  rw [hbits, decide_eq_true hp, Bool.true_and]

/-- The 8-lane branch ends as well, with the map of the records that are selected when the two columns are exchanged. -/
theorem lanes8_ok {simd : Simd} (h8 : simd.u64Lanes = 8) (max min : Vector U64 pageSizeRecs) (x : U64) :
    ∃ map, forRange pageSizeBitmap emptyMap (pass8 (simd.asSimdU64s max.toList).1 (simd.asSimdU64s min.toList).1
        (simd.splatU64s x)) = .ok map ∧ map.length = 512 ∧
      ∀ p < pageSizeRecs, bitAt map p = selected max.toList min.toList x p := by
  obtain ⟨map, hrun, hlen, hbits⟩ := forRange_ok pageSizeBitmap emptyMap
    (pass8 (simd.asSimdU64s max.toList).1 (simd.asSimdU64s min.toList).1 (simd.splatU64s x))
    (fun i map => map.length = 512 ∧
      ∀ p, bitAt map p = (decide (p / 8 < i) && selected max.toList min.toList x p))
    ⟨length_emptyMap, by simp⟩ (by
      intro i hi map hI
      obtain ⟨hm, hb⟩ := hI
      have hi' : i < 512 := hi
      have hlt : ∀ col : Vector U64 pageSizeRecs, i < col.toList.length / simd.u64Lanes := by
        intro col
        rw [length_column, h8]
        omega
      have hfull : ∀ col : Vector U64 pageSizeRecs, (i + 1) * simd.u64Lanes ≤ col.toList.length := by
        intro col
        rw [length_column, h8]
        omega
      let lane := fun k => maskLane (selected max.toList min.toList x (i * 8 + k))
      refine ⟨map.set i (packByte (lane 0) (lane 1) (lane 2) (lane 3) (lane 4) (lane 5) (lane 6) (lane 7)),
        ?_, ?_, ?_⟩
      · simp only [pass8, index_asSimdU64s (hlt _), ok_bind, Simd.splatU64s, and_lanesAt x (hfull max) (hfull min)]
        rw [h8, cast_map_range, ok_bind, store_of_lt (by omega)]
        simp [lane]
      · simpa using hm
      · intro p
        rw [bitAt_set (by omega)]
        by_cases hp : p / 8 = i
        · rw [if_pos hp, getLsbD_packByte (fun k => selected max.toList min.toList x (i * 8 + k))
            (Nat.mod_lt p (by decide)), ← hp, Nat.div_add_mod']
          simp
        · rw [if_neg hp, hb]
          have : p / 8 < i + 1 ↔ p / 8 < i := by omega
          simp [this])
  refine ⟨map, hrun, hlen, ?_⟩
  intro p hp
  have hp' : p / 8 < pageSizeBitmap := by
    simp only [pageSizeBitmap, pageSizeRecs] at hp ⊢
    omega
  rw [hbits, decide_eq_true hp', Bool.true_and]

/-- A mask of two columns, cast to an array of as many words as it has lanes. -/
theorem cast_and_ok {simd : Simd} {lanes i : Nat} (hl : simd.u64Lanes = lanes) (max min : Vector U64 pageSizeRecs)
    (x : U64) (hi : (i + 1) * lanes ≤ 4096) :
    ∃ v, cast lanes (and (lanesAt simd.u64Lanes max.toList i) (lanesAt simd.u64Lanes min.toList i) (simd.splatU64s x)) =
      .ok v := by
  subst hl
  rw [Simd.splatU64s, and_lanesAt x (by rw [length_column]; exact hi) (by rw [length_column]; exact hi), cast_map_range]
  exact ⟨_, rfl⟩

/-- A group of a column is read when it lies within the column. -/
theorem index_column {simd : Simd} {lanes i : Nat} (hl : simd.u64Lanes = lanes) (h : i < 4096 / lanes)
    (col : Vector U64 pageSizeRecs) :
    index (simd.asSimdU64s col.toList).1 i = .ok (lanesAt simd.u64Lanes col.toList i) := by
  subst hl
  exact index_asSimdU64s (by rw [length_column]; exact h)

/-- A group behind the last one of a column is not there. -/
theorem index_column_of_le {simd : Simd} {lanes i : Nat} (hl : simd.u64Lanes = lanes) (h : 4096 / lanes ≤ i)
    (col : Vector U64 pageSizeRecs) : index (simd.asSimdU64s col.toList).1 i = .error .indexOutOfBounds := by
  subst hl
  exact index_asSimdU64s_of_le (by rw [length_column]; exact h)

section Passes

variable {simd : Simd} (max min : Vector U64 pageSizeRecs) (x : U64) {map : List U8} {i : Nat}

/-- Every pass of the 8-lane loop ends. -/
theorem pass8_ok (h8 : simd.u64Lanes = 8) (hi : i < 512) (hm : map.length = 512) :
    ∃ map', pass8 (simd.asSimdU64s max.toList).1 (simd.asSimdU64s min.toList).1
      (simd.splatU64s x) i map = .ok map' := by
  have hread := index_column h8 (i := i) (by omega)
  obtain ⟨elements, helements⟩ := cast_and_ok (i := i) h8 max min x (by omega)
  have hbyte : i < map.length := by omega
  simp only [pass8, hread, ok_bind, helements, store_of_lt hbyte]
  exact ⟨_, rfl⟩

/-- A pass of the 4-lane loop ends while its second vector lies within the column. -/
theorem pass4_ok (h4 : simd.u64Lanes = 4) (hi : i < 1023) (hm : map.length = 512) :
    ∃ map', pass4 (simd.asSimdU64s max.toList).1 (simd.asSimdU64s min.toList).1 (simd.splatU64s x) i map = .ok map' ∧
      map'.length = 512 := by
  have hfirst := index_column h4 (i := i) (by omega)
  have hsecond := index_column h4 (i := i + 1) (by omega)
  obtain ⟨a, ha⟩ := cast_and_ok (i := i) h4 max min x (by omega)
  obtain ⟨b, hb⟩ := cast_and_ok (i := i + 1) h4 max min x (by omega)
  have hbyte : i / 2 < map.length := by omega
  simp only [pass4, hfirst, hsecond, ok_bind, ha, hb, store_of_lt hbyte]
  exact ⟨_, rfl, by simpa using hm⟩

/-- The last pass of the 4-lane loop reads a vector behind the last one. -/
theorem pass4_error (h4 : simd.u64Lanes = 4) :
    pass4 (simd.asSimdU64s max.toList).1 (simd.asSimdU64s min.toList).1 (simd.splatU64s x) 1023 map =
      .error .indexOutOfBounds := by
  have hread := index_column h4 (i := 1023) (by decide)
  have hpast := index_column_of_le h4 (i := 1023 + 1) (by decide)
  simp only [pass4, hread, hpast, ok_bind, error_bind]

/-- A pass of the 2-lane loop ends while its fourth vector lies within the column. -/
theorem pass2_ok (h2 : simd.u64Lanes = 2) (hi : i < 2045) (hm : map.length = 512) :
    ∃ map', pass2 (simd.asSimdU64s max.toList).1 (simd.asSimdU64s min.toList).1 (simd.splatU64s x) i map = .ok map' ∧
      map'.length = 512 := by
  have hfirst := index_column h2 (i := i) (by omega)
  have hsecond := index_column h2 (i := i + 1) (by omega)
  have hthird := index_column h2 (i := i + 2) (by omega)
  have hfourth := index_column h2 (i := i + 3) (by omega)
  obtain ⟨a, ha⟩ := cast_and_ok (i := i) h2 max min x (by omega)
  obtain ⟨b, hb⟩ := cast_and_ok (i := i + 1) h2 max min x (by omega)
  obtain ⟨c', hc⟩ := cast_and_ok (i := i + 2) h2 max min x (by omega)
  obtain ⟨d, hd⟩ := cast_and_ok (i := i + 3) h2 max min x (by omega)
  have hbyte : i / 4 < map.length := by omega
  simp only [pass2, hfirst, hsecond, hthird, hfourth, ok_bind, ha, hb, hc, hd, store_of_lt hbyte]
  exact ⟨_, rfl, by simpa using hm⟩

/-- Each of the last three passes of the 2-lane loop reads a vector behind the last one. -/
theorem pass2_error (h2 : simd.u64Lanes = 2) (hlow : 2045 ≤ i) (hi : i < 2048) :
    pass2 (simd.asSimdU64s max.toList).1 (simd.asSimdU64s min.toList).1 (simd.splatU64s x) i map =
      .error .indexOutOfBounds := by
  have hread : ∀ j < 2048, ∀ col : Vector U64 pageSizeRecs,
      index (simd.asSimdU64s col.toList).1 j = .ok (lanesAt simd.u64Lanes col.toList j) := fun j hj => index_column h2 hj
  have hpast : ∀ j, 2048 ≤ j → ∀ col : Vector U64 pageSizeRecs,
      index (simd.asSimdU64s col.toList).1 j = .error .indexOutOfBounds := fun j hj => index_column_of_le h2 hj
  -- the first vector behind the last one is the fourth, the third or the second of the pass
  obtain rfl | rfl | rfl : i = 2045 ∨ i = 2046 ∨ i = 2047 := by omega
  · simp only [pass2, hread 2045 (by omega), hread (2045 + 1) (by omega), hread (2045 + 2) (by omega),
      hpast (2045 + 3) (by omega), ok_bind, error_bind]
  · simp only [pass2, hread 2046 (by omega), hread (2046 + 1) (by omega), hpast (2046 + 2) (by omega),
      ok_bind, error_bind]
  · simp only [pass2, hread 2047 (by omega), hpast (2047 + 1) (by omega), ok_bind, error_bind]

/-- The 4-lane branch panics on every page: its last pass reads vector 1024 of a column of 1024 vectors. -/
theorem lanes4_panics (h4 : simd.u64Lanes = 4) :
    forRange (pageSizeBitmap * 2) emptyMap (pass4 (simd.asSimdU64s max.toList).1 (simd.asSimdU64s min.toList).1
      (simd.splatU64s x)) = .error .indexOutOfBounds := by
  obtain ⟨map, hrun, -⟩ := forRange_ok 1023 emptyMap
    (pass4 (simd.asSimdU64s max.toList).1 (simd.asSimdU64s min.toList).1 (simd.splatU64s x))
    (fun _ map => map.length = 512) length_emptyMap fun i hi map hm => pass4_ok max min x h4 hi hm
  exact forRange_error (j := 1023) (by decide) hrun (pass4_error max min x h4)

/-- The 2-lane branch panics on every page: pass 2045 reads vector 2048 of a column of 2048 vectors. -/
theorem lanes2_panics (h2 : simd.u64Lanes = 2) :
    forRange (pageSizeBitmap * 4) emptyMap (pass2 (simd.asSimdU64s max.toList).1 (simd.asSimdU64s min.toList).1
      (simd.splatU64s x)) = .error .indexOutOfBounds := by
  obtain ⟨map, hrun, -⟩ := forRange_ok 2045 emptyMap
    (pass2 (simd.asSimdU64s max.toList).1 (simd.asSimdU64s min.toList).1 (simd.splatU64s x))
    (fun _ map => map.length = 512) length_emptyMap fun i hi map hm => pass2_ok max min x h2 hi hm
  exact forRange_error (j := 2045) (by decide) hrun (pass2_error max min x h2 (by decide) (by decide))

end Passes

/-! ## The branches compared -/

/-- The assertions on the left-over values never fail: every width cuts the columns evenly. -/
theorem withSimd_eq (simd : Simd) (page : Page) (x : U64) : withSimd simd page x =
    if simd.u64Lanes = 8 then
      forRange pageSizeBitmap emptyMap (pass8 (simd.asSimdU64s page.xmin.toList).1 (simd.asSimdU64s page.xmax.toList).1
        (simd.splatU64s x))
    else if simd.u64Lanes = 4 then
      forRange (pageSizeBitmap * 2) emptyMap (pass4 (simd.asSimdU64s page.xmin.toList).1
        (simd.asSimdU64s page.xmax.toList).1 (simd.splatU64s x))
    else if simd.u64Lanes = 2 then
      forRange (pageSizeBitmap * 4) emptyMap (pass2 (simd.asSimdU64s page.xmin.toList).1
        (simd.asSimdU64s page.xmax.toList).1 (simd.splatU64s x))
    else fallback page x := by
  have htail : ∀ col : Vector U64 pageSizeRecs, (simd.asSimdU64s col.toList).2 = [] := fun col =>
    tail_asSimdU64s (by rw [length_column]; exact simd.dvd)
  simp only [withSimd, htail, List.length_nil, assertEq_self, ok_bind]

/-- The scalar branch shows exactly the records the transaction sees. It ends, and its map is the one of a machine
whose width has no branch of its own; bit `i % 8` of byte `i / 8` is set exactly when record `i` was created before
`x` and not deleted before `x`; and no other bit of the map is set. -/
theorem fallback_exact (page : Page) (x : U64) : ∃ map, fallback page x = .ok map ∧
    (∀ simd : Simd, simd.u64Lanes ≠ 8 → simd.u64Lanes ≠ 4 → simd.u64Lanes ≠ 2 →
      page.visibilityMap simd x = .ok map) ∧
    map.length = pageSizeBitmap ∧
    (∀ i : Fin pageSizeRecs,
      (map.getD (i.val / 8) 0).getLsbD (i.val % 8) = true ↔ page.xmin.get i < x ∧ x ≤ page.xmax.get i) ∧
    ∀ byte bit, (map.getD byte 0).getLsbD bit = true → ∃ i : Fin pageSizeRecs, byte = i.val / 8 ∧
      bit = i.val % 8 := by
  obtain ⟨map, hrun, hlen, hbits⟩ := fallback_ok page x
  refine ⟨map, hrun, ?_, hlen, ?_, ?_⟩
  · intro simd h8 h4 h2
    rw [Page.visibilityMap, withSimd_eq, if_neg h8, if_neg h4, if_neg h2, hrun]
  · intro i
    have hbit := hbits i.val i.isLt
    rw [selected_eq_shows] at hbit
    exact (Bool.eq_iff_iff.mp hbit).trans decide_eq_true_iff
  · intro byte bit hset
    have hbyte : byte < 512 := by
      by_contra hge
      rw [List.getD_eq_default _ _ (by omega)] at hset
      simp at hset
    have hbit : bit < 8 := BitVec.lt_of_getLsbD hset
    refine ⟨⟨8 * byte + bit, ?_⟩, ?_, ?_⟩
    · simp only [pageSizeRecs]
      omega
    · show byte = (8 * byte + bit) / 8
      omega
    · show bit = (8 * byte + bit) % 8
      omega

/-- Two maps of a page are the same exactly when they show the same records. -/
theorem map_eq_iff {map map' : List U8} {f g : Nat → Bool} (hm : map.length = 512) (hm' : map'.length = 512)
    (hf : ∀ p < pageSizeRecs, bitAt map p = f p) (hg : ∀ p < pageSizeRecs, bitAt map' p = g p) :
    map = map' ↔ ∀ p < pageSizeRecs, f p = g p := by
  constructor
  · intro h p hp
    rw [← hf p hp, ← hg p hp, h]
  · intro h
    refine ext_bitAt (by rw [hm, hm']) ?_
    intro p hp
    have hp : p < pageSizeRecs := by rwa [hm] at hp
    rw [hf p hp, hg p hp, h p hp]

/-- The branch for `simd` returns normally, and returns the bitmap of the scalar branch. -/
def BranchAgrees (simd : Simd) (page : Page) (x : U64) : Prop :=
  ∃ map, page.visibilityMap simd x = .ok map ∧ fallback page x = .ok map

/-- A record cannot be seen both with its columns as they are and with its columns exchanged. -/
theorem not_shows_exchanged {page : Page} {x : U64} {i : Fin pageSizeRecs} (h : page.Shows x i) :
    ¬page.exchanged.Shows x i := by
  intro h'
  simp only [Page.Shows, Page.exchanged, BitVec.lt_def, BitVec.le_def] at h h'
  omega

/-- The 8-lane branch agrees with the scalar one exactly when no record is seen with its columns either way round. -/
theorem lanes8_agrees_iff {simd : Simd} (h8 : simd.u64Lanes = 8) (page : Page) (x : U64) :
    BranchAgrees simd page x ↔ ∀ i, ¬page.Shows x i ∧ ¬page.exchanged.Shows x i := by
  obtain ⟨map, hrun, hlen, hbits⟩ := lanes8_ok h8 page.xmin page.xmax x
  obtain ⟨ref, href, hreflen, hrefbits⟩ := fallback_ok page x
  have hbranch : BranchAgrees simd page x ↔ map = ref := by
    simp [BranchAgrees, Page.visibilityMap, withSimd_eq, h8, hrun, href, eq_comm]
  rw [hbranch, map_eq_iff hlen hreflen hbits hrefbits]
  constructor
  · intro h i
    have hi := h i i.isLt
    rw [selected_eq_shows_exchanged, selected_eq_shows, decide_eq_decide] at hi
    exact ⟨fun hs => not_shows_exchanged hs (hi.2 hs), fun hs => not_shows_exchanged (hi.1 hs) hs⟩
  · intro h p hp
    have hne := h ⟨p, hp⟩
    rw [selected_eq_shows_exchanged page x ⟨p, hp⟩, selected_eq_shows page x ⟨p, hp⟩, decide_eq_decide]
    exact ⟨fun hs => absurd hs hne.2, fun hs => absurd hs hne.1⟩

/-- Which branches agree with the scalar one: the scalar branch itself, and the 8-lane branch on the pages where no record
has `x` above one of its two transactions and at most the other. The 4-lane and the 2-lane branch panic on every page, so
there is no page and no transaction on which all branches agree. -/
theorem withSimd_agrees_iff (page : Page) (x : U64) :
    (∀ simd : Simd, BranchAgrees simd page x ↔
      (simd.u64Lanes ≠ 8 ∧ simd.u64Lanes ≠ 4 ∧ simd.u64Lanes ≠ 2) ∨
        (simd.u64Lanes = 8 ∧ ∀ i, ¬page.Shows x i ∧ ¬page.exchanged.Shows x i)) ∧
      ¬∀ simd : Simd, BranchAgrees simd page x := by
  have each : ∀ simd : Simd, BranchAgrees simd page x ↔
      (simd.u64Lanes ≠ 8 ∧ simd.u64Lanes ≠ 4 ∧ simd.u64Lanes ≠ 2) ∨
        (simd.u64Lanes = 8 ∧ ∀ i, ¬page.Shows x i ∧ ¬page.exchanged.Shows x i) := by
    intro simd
    by_cases h8 : simd.u64Lanes = 8
    · simp [lanes8_agrees_iff h8, h8]
    · by_cases h4 : simd.u64Lanes = 4
      · simp [BranchAgrees, Page.visibilityMap, withSimd_eq, h4, lanes4_panics _ _ _ h4]
      · by_cases h2 : simd.u64Lanes = 2
        · simp [BranchAgrees, Page.visibilityMap, withSimd_eq, h2, lanes2_panics _ _ _ h2]
        · obtain ⟨map, hrun, -⟩ := fallback_ok page x
          simp [BranchAgrees, Page.visibilityMap, withSimd_eq, h8, h4, h2, hrun]
  refine ⟨each, ?_⟩
  intro h
  have h4 := (each ⟨4, by decide⟩).1 (h ⟨4, by decide⟩)
  simp at h4

/-- A page of records that transaction 0 created and nothing deleted: the scalar branch shows them all to
transaction 1, the 8-lane branch none of them. -/
def liveRecords : Page := { Page.new with xmin := Vector.replicate _ 0 }

/-- On that page no vector branch agrees with the scalar one, although transaction 1 sees every record. -/
theorem withSimd_liveRecords : (∀ i, liveRecords.Shows 1 i) ∧
    ∀ simd : Simd, simd.u64Lanes = 8 ∨ simd.u64Lanes = 4 ∨ simd.u64Lanes = 2 →
      ¬BranchAgrees simd liveRecords 1 := by
  have hshows : ∀ i, liveRecords.Shows 1 i := by
    intro i
    simp [liveRecords, Page.new, Page.Shows, invalid]
  refine ⟨hshows, ?_⟩
  intro simd hl h
  rcases hl with h8 | h4 | h2
  · exact ((lanes8_agrees_iff h8 _ _).1 h ⟨0, by decide⟩).1 (hshows _)
  · simp [BranchAgrees, Page.visibilityMap, withSimd_eq, h4, lanes4_panics _ _ _ h4] at h
  · simp [BranchAgrees, Page.visibilityMap, withSimd_eq, h2, lanes2_panics _ _ _ h2] at h

/-! ## The vectors a pass reads -/

namespace Simd

/-- The number of vectors that make one byte of the map. -/
def vectorsPerByte (simd : Simd) : Nat := 8 / simd.u64Lanes

/-- The number of passes of the loop over vectors. -/
def passes (simd : Simd) : Nat := pageSizeBitmap * simd.vectorsPerByte

/-- A pass of the loop over vectors, with the columns bound as `withSimd` binds them. -/
def pass (simd : Simd) (page : Page) (x : U64) : Nat → List U8 → Outcome (List U8) :=
  let xmax := (simd.asSimdU64s page.xmin.toList).1
  let xmin := (simd.asSimdU64s page.xmax.toList).1
  let xSplat := simd.splatU64s x
  if simd.u64Lanes = 8 then pass8 xmax xmin xSplat
  else if simd.u64Lanes = 4 then pass4 xmax xmin xSplat
  else pass2 xmax xmin xSplat

/-- Pass `i` stays in range: the vectors that make its byte, from vector `i` on, lie within the columns, and the
byte within the map. -/
structure InRange (simd : Simd) (i : Nat) : Prop where
  vectors : ∀ k < simd.vectorsPerByte, i + k < pageSizeRecs / simd.u64Lanes
  byte : i / simd.vectorsPerByte < pageSizeBitmap

/-- The passes that stay in range: all of the 8-lane loop, and all but the last ones of the others. -/
theorem inRange_iff {simd : Simd} (hl : simd.u64Lanes = 8 ∨ simd.u64Lanes = 4 ∨ simd.u64Lanes = 2) {i : Nat}
    (hi : i < simd.passes) : simd.InRange i ↔
      simd.u64Lanes = 8 ∨ (simd.u64Lanes = 4 ∧ i < 1023) ∨ (simd.u64Lanes = 2 ∧ i < 2045) := by
  have hmap : pageSizeBitmap = 512 := rfl
  have hrecs : pageSizeRecs = 4096 := rfl
  simp only [passes, vectorsPerByte, hmap] at hi
  constructor
  · rintro ⟨hvectors, -⟩
    simp only [vectorsPerByte, hrecs] at hvectors
    rcases hl with h8 | h4 | h2
    · exact Or.inl h8
    · rw [h4] at hvectors
      have := hvectors 1 (by decide)
      exact Or.inr (Or.inl ⟨h4, by omega⟩)
    · rw [h2] at hvectors
      have := hvectors 3 (by decide)
      exact Or.inr (Or.inr ⟨h2, by omega⟩)
  · rintro (h8 | ⟨h4, hlt⟩ | ⟨h2, hlt⟩)
    · rw [h8] at hi
      constructor
      · intro k hk
        simp only [vectorsPerByte, h8, hrecs] at hk ⊢
        omega
      · simp only [vectorsPerByte, h8, hmap]
        omega
    · constructor
      · intro k hk
        simp only [vectorsPerByte, h4, hrecs] at hk ⊢
        omega
      · simp only [vectorsPerByte, h4, hmap]
        omega
    · constructor
      · intro k hk
        simp only [vectorsPerByte, h2, hrecs] at hk ⊢
        omega
      · simp only [vectorsPerByte, h2, hmap]
        omega

/-- A pass ends exactly when it stays in range: an index out of range is the only thing that stops it. -/
theorem pass_ok_iff {simd : Simd} (hl : simd.u64Lanes = 8 ∨ simd.u64Lanes = 4 ∨ simd.u64Lanes = 2) (page : Page)
    (x : U64) {i : Nat} (hi : i < simd.passes) {map : List U8} (hm : map.length = pageSizeBitmap) :
    (∃ map', simd.pass page x i map = .ok map') ↔ simd.InRange i := by
  rw [inRange_iff hl hi]
  have hm : map.length = 512 := hm
  have hbitmap : pageSizeBitmap = 512 := rfl
  simp only [passes, vectorsPerByte, hbitmap] at hi
  rcases hl with h8 | h4 | h2
  · rw [h8] at hi
    simp only [pass, h8, if_true, true_or, iff_true]
    exact pass8_ok page.xmin page.xmax x h8 (by omega) hm
  · rw [h4] at hi
    have hpass : simd.pass page x = pass4 (simd.asSimdU64s page.xmin.toList).1 (simd.asSimdU64s page.xmax.toList).1
        (simd.splatU64s x) := by simp [pass, h4]
    rw [hpass]
    constructor
    · rintro ⟨map', hrun⟩
      refine Or.inr (Or.inl ⟨h4, ?_⟩)
      by_contra hge
      obtain rfl : i = 1023 := by omega
      rw [pass4_error page.xmin page.xmax x h4] at hrun
      cases hrun
    · intro hlt
      obtain ⟨map', hrun, -⟩ := pass4_ok page.xmin page.xmax x h4 (i := i) (by omega) hm
      exact ⟨map', hrun⟩
  · rw [h2] at hi
    have hpass : simd.pass page x = pass2 (simd.asSimdU64s page.xmin.toList).1 (simd.asSimdU64s page.xmax.toList).1
        (simd.splatU64s x) := by simp [pass, h2]
    rw [hpass]
    constructor
    · rintro ⟨map', hrun⟩
      refine Or.inr (Or.inr ⟨h2, ?_⟩)
      by_contra hge
      rw [pass2_error page.xmin page.xmax x h2 (by omega) (by omega)] at hrun
      cases hrun
    · intro hlt
      obtain ⟨map', hrun, -⟩ := pass2_ok page.xmin page.xmax x h2 (i := i) (by omega) hm
      exact ⟨map', hrun⟩

/-- The vector branches are one loop. -/
theorem visibilityMap_eq_loop {simd : Simd} (hl : simd.u64Lanes = 8 ∨ simd.u64Lanes = 4 ∨ simd.u64Lanes = 2)
    (page : Page) (x : U64) : page.visibilityMap simd x = forRange simd.passes emptyMap (simd.pass page x) := by
  rw [Page.visibilityMap, withSimd_eq]
  unfold passes vectorsPerByte pass
  rcases hl with h8 | h4 | h2
  · simp [h8]
  · simp [h4]
  · simp [h2]

end Simd

/-- When the vector branches stay in range. For each of the three widths, every page and every transaction, the
branch is a loop whose passes end exactly when they stay in range; a pass stays in range exactly when the width is
eight, or it is none of the last pass of four lanes or the last three of two; and so all passes of the loop do
exactly when the width is eight. -/
theorem vectors_in_range_iff (simd : Simd) (hl : simd.u64Lanes = 8 ∨ simd.u64Lanes = 4 ∨ simd.u64Lanes = 2)
    (page : Page) (x : U64) : page.visibilityMap simd x = forRange simd.passes emptyMap (simd.pass page x) ∧
      (∀ i < simd.passes, ∀ map : List U8, map.length = pageSizeBitmap →
        ((∃ map', simd.pass page x i map = .ok map') ↔ simd.InRange i)) ∧
      (∀ i < simd.passes, simd.InRange i ↔
        simd.u64Lanes = 8 ∨ (simd.u64Lanes = 4 ∧ i < 1023) ∨ (simd.u64Lanes = 2 ∧ i < 2045)) ∧
      ((∀ i < simd.passes, simd.InRange i) ↔ simd.u64Lanes = 8) := by
  refine ⟨Simd.visibilityMap_eq_loop hl page x, fun i hi map hm => Simd.pass_ok_iff hl page x hi hm,
    fun i hi => Simd.inRange_iff hl hi, ?_⟩
  have hmap : pageSizeBitmap = 512 := rfl
  constructor
  · intro h
    rcases hl with h8 | h4 | h2
    · exact h8
    · have hlast : 1023 < simd.passes := by simp [Simd.passes, Simd.vectorsPerByte, h4, hmap]
      have := (Simd.inRange_iff (Or.inr (Or.inl h4)) hlast).mp (h 1023 hlast)
      omega
    · have hlast : 2045 < simd.passes := by simp [Simd.passes, Simd.vectorsPerByte, h2, hmap]
      have := (Simd.inRange_iff (Or.inr (Or.inr h2)) hlast).mp (h 2045 hlast)
      omega
  · intro h8 i hi
    exact (Simd.inRange_iff hl hi).mpr (Or.inl h8)

/-- A machine of eight lanes. -/
def eightLanes : Simd := { u64Lanes := 8, dvd := by decide }

/-- A machine of four lanes. -/
def fourLanes : Simd := { u64Lanes := 4, dvd := by decide }

/-- With eight lanes, all passes over a new page stay in range, and with four, all but the last. -/
theorem vectors_in_range_lanes : (∀ i < eightLanes.passes, eightLanes.InRange i) ∧
    (∀ i < fourLanes.passes, i ≠ 1023 → fourLanes.InRange i) ∧
      ¬∀ i < fourLanes.passes, fourLanes.InRange i := by
  obtain ⟨-, -, -, height⟩ := vectors_in_range_iff eightLanes (Or.inl rfl) Page.new 1
  obtain ⟨-, -, hfour, hall⟩ := vectors_in_range_iff fourLanes (Or.inr (Or.inl rfl)) Page.new 1
  have hpasses : fourLanes.passes = 1024 := by decide
  refine ⟨height.mpr rfl, fun i hi hne => (hfour i hi).mpr (Or.inr (Or.inl ⟨rfl, by omega⟩)), fun h => ?_⟩
  exact absurd (hall.mp h) (by decide)

/-- With four lanes, the last pass reads vector 1024 of 1024, so that no map of a new page is computed. -/
theorem vectors_past_column_four_lanes : 1023 < fourLanes.passes ∧ ¬fourLanes.InRange 1023 ∧
    1023 + 1 = pageSizeRecs / fourLanes.u64Lanes ∧ Page.new.visibilityMap fourLanes 1 = .error .indexOutOfBounds := by
  refine ⟨by decide, ?_, rfl, ?_⟩
  · intro h
    exact absurd (h.vectors 1 (by decide)) (by decide)
  · rw [Page.visibilityMap, withSimd_eq]
    exact @lanes4_panics fourLanes Page.new.xmin Page.new.xmax 1 rfl

end Kobzar.Pidx
