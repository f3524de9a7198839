import SkipZFP.Lib.Words

/-! # The bit planes of a block

`decodePlanes` is `decode_planes`: it takes the bits of a block in words of eight bytes (`peek`), scanning
runs of zeros with `ctz`. `serialPlanes` is the code it implements, reading one bit after another.

* `getLsbD_peek`: the bits a peek is made of.
* `scanRun_spec`, `groupTests_spec`, `verbatim_spec`: each part of a plane against the bits it reads.
* `decode_planes_serial`: **the word-level decoder and the bit-serial code return the same planes.** -/

namespace SkipZFP.Decode.Planes

open SkipZFP.Lib.Rows SkipZFP.Lib.Bits SkipZFP.Lib.Words

/-! ### The decoder -/

/-- **`peek`**: the word of the eight bytes from the byte of bit `pos` on, shifted to that bit. -/
def peek (buf : List UInt8) (pos : ℕ) : Word :=
  ofBits (bitsOf (slice buf (pos / 8) (pos / 8 + 8))) >>> (pos % 8)

/-- Where a decoder is: the coefficients `n` found significant so far, the bits left and the position. -/
structure Cursor where
  n : ℕ
  bits : ℕ
  pos : ℕ

section Decoder
variable (buf : List UInt8)

/-- The verbatim bits of a plane. -/
def verbatim (s : Cursor) : Word × Cursor :=
  let m := min s.n s.bits
  let x :=
    if m ≤ 56 then if m ≠ 0 then peek buf s.pos &&& lowMask m else 0#64
    else peek buf s.pos &&& 0xffffffff#64 ||| (peek buf (s.pos + 32) &&& lowMask (m - 32)) <<< 32
  (x, { s with bits := s.bits - m, pos := s.pos + m })

/-- The scan for the next one-bit, reading at most `limAll` zeros. -/
def scanRun (s : Cursor) (limAll : ℕ) : Cursor :=
  let w := peek buf s.pos
  let lim := min limAll 56
  let z := if w ≠ 0#64 then ctz w else 64
  if z < lim then { n := s.n + z, bits := s.bits - (z + 1), pos := s.pos + (z + 1) }
  else
    let s' : Cursor := { n := s.n + lim, bits := s.bits - lim, pos := s.pos + lim }
    if limAll - lim = 0 then s' else scanRun s' (limAll - lim)
termination_by limAll
decreasing_by
  omega

theorem n_le_scanRun (s : Cursor) (limAll : ℕ) : s.n ≤ (scanRun buf s limAll).n := by
  fun_induction scanRun buf s limAll with
  | case1 s limAll w lim z hz => exact Nat.le_add_right _ _
  | case2 s limAll w lim z hz s' hlim => exact Nat.le_add_right _ _
  | case3 s limAll w lim z hz s' hlim ih => exact (Nat.le_add_right _ _).trans ih

/-- **The group tests of a plane**, and the runs of zeros after them. -/
def groupTests (x : Word) (s : Cursor) : Word × Cursor :=
  if 0 < s.bits ∧ s.n < 64 then
    if (peek buf s.pos).getLsbD 0 = false then (x, { s with bits := s.bits - 1, pos := s.pos + 1 })
    else
      let limAll := min (63 - s.n) (s.bits - 1)
      let s' := scanRun buf { s with bits := s.bits - 1, pos := s.pos + 1 } limAll
      groupTests (x + 1#64 <<< s'.n) { s' with n := s'.n + 1 }
  else (x, s)
termination_by 64 - s.n
decreasing_by
  have h := n_le_scanRun buf { s with bits := s.bits - 1, pos := s.pos + 1 }
    (min (63 - s.n) (s.bits - 1))
  dsimp only at h ⊢
  omega

/-- One plane: its verbatim bits, then its group tests. -/
def plane (s : Cursor) : Word × Cursor :=
  let v := verbatim buf s
  groupTests buf v.1 v.2

/-- The planes, while there are bits and at most `k` of them. -/
def planesLoop (plane : Cursor → Word × Cursor) : ℕ → Cursor → List Word
  | 0, _ => []
  | k + 1, s =>
    if s.bits = 0 then []
    else
      let p := plane s
      p.1 :: planesLoop plane k p.2

/-- **`decode_planes`**: the planes, the most significant first. -/
def decodePlanes (pos bits : ℕ) : List Word :=
  planesLoop (plane buf) 32 { n := 0, bits := bits, pos := pos }

end Decoder

/-! ### The bit-serial code -/

/-- Reads bits while `n < 63` and there are any: a zero advances `n`, the first one ends the scan. -/
def readRun : ℕ → List Bool → ℕ × List Bool
  | n, [] => (n, [])
  | n, b :: bs => if n < 63 then if b then (n, bs) else readRun (n + 1) bs else (n, b :: bs)

theorem length_readRun : ∀ (n : ℕ) (bs : List Bool), (readRun n bs).2.length ≤ bs.length
  | n, [] => by simp [readRun]
  | n, b :: bs => by
    have ih := length_readRun (n + 1) bs
    unfold readRun
    split_ifs
    · simp
    · exact ih.trans (Nat.le_succ _)
    · simp

/-- Reads group tests while there are bits and `n < 64`: a zero ends the plane; after a one and the scan,
bit `n` is set and `n` advances. -/
def readTests (n : ℕ) (x : Word) : List Bool → ℕ × Word × List Bool
  | [] => (n, x, [])
  | b :: bs =>
    if n < 64 then
      if b then
        let r := readRun n bs
        readTests (r.1 + 1) (x ||| 1#64 <<< r.1) r.2
      else (n, x, bs)
    else (n, x, b :: bs)
termination_by bs => bs.length
decreasing_by
  exact Nat.lt_succ_of_le (length_readRun n bs)

/-- Reads a plane: `min n bits` verbatim bits, then group tests. -/
def serialPlane (n : ℕ) (bs : List Bool) : ℕ × Word × List Bool :=
  let m := min n bs.length
  readTests n (ofBits (bs.take m)) (bs.drop m)

/-- Reads planes while there are bits, at most `k` of them. -/
def serialPlanesFrom : ℕ → ℕ → List Bool → List Word
  | 0, _, _ => []
  | k + 1, n, bs =>
    if bs = [] then []
    else
      let r := serialPlane n bs
      r.2.1 :: serialPlanesFrom k r.1 r.2.2

/-- **The bit-serial embedded code**: the planes of some bits. -/
def serialPlanes (bs : List Bool) : List Word := serialPlanesFrom 32 0 bs

/-! ### The bits under a cursor -/

/-- The data of a block, followed by the zero bytes that a peek may read. -/
def padded (data : List UInt8) : List UInt8 := data ++ List.replicate 8 0

/-- A cursor stands before the bits `bs`, the last ones of the data. -/
structure At (data : List UInt8) (s : Cursor) (bs : List Bool) : Prop where
  total : s.pos + s.bits = 8 * data.length
  drop : bs = (bitsOf data).drop s.pos

section Spec
variable {data : List UInt8} {s : Cursor} {bs : List Bool}

theorem At.length (h : At data s bs) : bs.length = s.bits := by
  have ht := h.total
  rw [h.drop, List.length_drop, length_bitsOf]
  omega

theorem At.advance (h : At data s bs) {k : ℕ} (hk : k ≤ s.bits) (n : ℕ) :
    At data { n := n, bits := s.bits - k, pos := s.pos + k } (bs.drop k) := by
  have ht := h.total
  refine ⟨?_, ?_⟩
  · show s.pos + k + (s.bits - k) = 8 * data.length
    omega
  · rw [h.drop, List.drop_drop]

theorem bitsOf_padded (data : List UInt8) :
    bitsOf (padded data) = bitsOf data ++ List.replicate 64 false := by
  unfold bitsOf padded
  rw [List.map_append, List.flatten_append]
  rfl

/-- **The bits of a peek**: those before the cursor, and zeros after the last one. -/
theorem getLsbD_peek (h : At data s bs) {i : ℕ} (hi : i < 57) :
    (peek (padded data) s.pos).getLsbD i = bs.getD i false := by
  have ht := h.total
  have hp := Nat.div_add_mod s.pos 8
  have hm := Nat.mod_lt s.pos (by norm_num : 0 < 8)
  have hlen : (bitsOf data).length = 8 * data.length := length_bitsOf data
  rw [peek, BitVec.getLsbD_ushiftRight, getLsbD_ofBits, decide_eq_true (by omega), Bool.true_and,
    bitsOf_slice, bitsOf_padded, h.drop, slice]
  rw [List.getD_eq_getElem?_getD, List.getElem?_take_of_lt (by omega), List.getElem?_drop,
    List.getD_eq_getElem?_getD, List.getElem?_drop]
  have hpos : 8 * (s.pos / 8) + (s.pos % 8 + i) = s.pos + i := by omega
  rw [hpos]
  by_cases hin : s.pos + i < (bitsOf data).length
  · rw [List.getElem?_append_left hin]
  · rw [List.getElem?_append_right (by omega), List.getElem?_replicate,
      List.getElem?_eq_none (by omega)]
    split <;> rfl

/-! ### Scans -/

theorem readRun_skip : ∀ (k n : ℕ) (bs : List Bool), k ≤ bs.length → n + k ≤ 63 →
    (∀ i < k, bs.getD i false = false) → readRun n bs = readRun (n + k) (bs.drop k)
  | 0, _, _, _, _, _ => rfl
  | k + 1, _, [], hk, _, _ => absurd hk (by simp)
  | k + 1, n, b :: bs, hk, hn, hz => by
    have hb : b = false := hz 0 (Nat.succ_pos k)
    have ih := readRun_skip k (n + 1) bs (by simpa using hk) (by omega) fun i hi =>
      hz (i + 1) (by omega)
    rw [readRun, if_pos (by omega), hb, if_neg Bool.false_ne_true, ih, List.drop_succ_cons,
      Nat.add_right_comm, Nat.add_assoc]

theorem readRun_one {n : ℕ} (hn : n < 63) (hb : bs.getD 0 false = true) :
    readRun n bs = (n, bs.drop 1) := by
  rcases bs with _ | ⟨b, bs⟩
  · cases hb
  · rw [List.getD_cons_zero] at hb
    rw [readRun, if_pos hn, if_pos hb, List.drop_succ_cons, List.drop_zero]

theorem readRun_full (bs : List Bool) : readRun 63 bs = (63, bs) := by
  rcases bs with _ | ⟨b, bs⟩
  · rfl
  · rw [readRun, if_neg (lt_irrefl 63)]

theorem scan_bits (h : At data s bs) {z : ℕ} (hz : z = if peek (padded data) s.pos ≠ 0#64
    then ctz (peek (padded data) s.pos) else 64) :
    (∀ i < z, i < 57 → bs.getD i false = false) ∧ (z < 57 → bs.getD z false = true) := by
  by_cases hw : peek (padded data) s.pos = 0#64
  · rw [if_neg (not_not.mpr hw)] at hz
    refine ⟨fun i _ hi => ?_, fun h57 => by omega⟩
    rw [← getLsbD_peek h hi, hw]
    exact BitVec.getLsbD_zero
  · rw [if_pos hw] at hz
    subst hz
    refine ⟨fun i hiz hi => ?_, fun h57 => ?_⟩
    · rw [← getLsbD_peek h hi]
      exact getLsbD_of_lt_ctz hiz
    · rw [← getLsbD_peek h h57]
      exact getLsbD_ctz (by omega)

/-- **The scan by words finds what the scan by bits finds.** -/
theorem scanRun_spec (limAll : ℕ) (h : At data s bs) (hn : s.n ≤ 63)
    (hlim : limAll = min (63 - s.n) s.bits) :
    At data (scanRun (padded data) s limAll) (readRun s.n bs).2 ∧
      (scanRun (padded data) s limAll).n = (readRun s.n bs).1 := by
  have hlen := h.length
  fun_induction scanRun (padded data) s limAll generalizing bs with
  | case1 s limAll w lim z =>
    rename_i hz
    -- the run ends in this window
    obtain ⟨hzero, hone⟩ := scan_bits h (z := z) rfl
    have hrun : readRun s.n bs = (s.n + z, bs.drop (z + 1)) := by
      rw [readRun_skip z s.n bs (by omega) (by omega) fun i hi => hzero i hi (by omega),
        readRun_one (by omega) (by rw [List.getD_eq_getElem?_getD, List.getElem?_drop,
          ← List.getD_eq_getElem?_getD]; exact hone (by omega)), List.drop_drop]
    rw [hrun]
    exact ⟨h.advance (by omega) _, rfl⟩
  | case2 s limAll w lim z =>
    rename_i hz s' hend
    -- no bit is left to read: the last coefficient, or the end of the budget
    obtain ⟨hzero, -⟩ := scan_bits h (z := z) rfl
    have hrun : readRun s.n bs = (s.n + lim, bs.drop lim) := by
      rw [readRun_skip lim s.n bs (by omega) (by omega) fun i hi => hzero i (by omega) (by omega)]
      by_cases hfull : s.n + lim = 63
      · rw [hfull, readRun_full]
      · rw [List.drop_eq_nil_of_le (by omega)]
        rfl
    rw [hrun]
    exact ⟨h.advance (by omega) _, rfl⟩
  | case3 s limAll w lim z =>
    rename_i hz s' hend ih
    obtain ⟨hzero, -⟩ := scan_bits h (z := z) rfl
    rw [readRun_skip lim s.n bs (by omega) (by omega) fun i hi => hzero i (by omega) (by omega)]
    have h' := h.advance (k := lim) (by omega) (s.n + lim)
    exact ih h' (show s.n + lim ≤ 63 by omega)
      (show limAll - lim = min (63 - (s.n + lim)) (s.bits - lim) by omega) h'.length

theorem readRun_le : ∀ (n : ℕ) (bs : List Bool), n ≤ 63 → n ≤ (readRun n bs).1 ∧ (readRun n bs).1 ≤ 63
  | n, [], hn => ⟨le_rfl, hn⟩
  | n, b :: bs, hn => by
    by_cases h : n < 63
    · have ih := readRun_le (n + 1) bs h
      rw [readRun, if_pos h]
      rcases b
      · exact ⟨by have := ih.1; simp; omega, ih.2⟩
      · exact ⟨le_rfl, hn⟩
    · rw [readRun, if_neg h]
      exact ⟨le_rfl, hn⟩

/-! ### Planes -/

/-- A plane that is read up to its end: the word, where the next plane begins, and how many coefficients
are significant there. -/
structure Reads (data : List UInt8) (p : Word × Cursor) (r : ℕ × Word × List Bool) : Prop where
  word : p.1 = r.2.1
  rest : At data p.2 r.2.2
  n_eq : p.2.n = r.1
  n_le : p.2.n ≤ 64

/-- **The group tests by words are those by bits.** -/
theorem groupTests_spec {x : Word} (h : At data s bs) (hx : Below x s.n) (hn : s.n ≤ 64) :
    Reads data (groupTests (padded data) x s) (readTests s.n x bs) := by
  have hlen := h.length
  fun_induction groupTests (padded data) x s generalizing bs with
  | case1 x s =>
    rename_i hgo hbit
    -- a zero: no coefficient is left to find in this plane
    obtain ⟨b, bs, rfl⟩ := List.exists_cons_of_length_pos (by omega : 0 < bs.length)
    rw [getLsbD_peek h (by norm_num), List.getD_cons_zero] at hbit
    rw [readTests, if_pos hgo.2, hbit, if_neg Bool.false_ne_true]
    have h' := h.advance (k := 1) hgo.1 s.n
    rw [List.drop_succ_cons, List.drop_zero] at h'
    exact ⟨rfl, h', rfl, hn⟩
  | case2 x s =>
    rename_i hgo hbit limAll s' ih
    obtain ⟨b, bs, rfl⟩ := List.exists_cons_of_length_pos (by omega : 0 < bs.length)
    rw [getLsbD_peek h (by norm_num), List.getD_cons_zero, Bool.not_eq_false] at hbit
    have h' := h.advance (k := 1) hgo.1 s.n
    rw [List.drop_succ_cons, List.drop_zero] at h'
    obtain ⟨hat, hnat⟩ := scanRun_spec limAll h' (by show s.n ≤ 63; omega) rfl
    have hle := readRun_le s.n bs (by omega)
    have hs' : s'.n = (readRun s.n bs).1 := hnat
    have hbelow : Below x s'.n := hx.mono (by omega)
    rw [readTests, if_pos hgo.2, if_pos hbit]
    dsimp only
    rw [← hs', ← add_bit hbelow]
    have hat' : At data { s' with n := s'.n + 1 } (readRun s.n bs).2 := ⟨hat.total, hat.drop⟩
    refine ih hat' ?_ (by show s'.n + 1 ≤ 64; omega) hat.length
    rw [add_bit hbelow]
    exact hbelow.set le_rfl
  | case3 x s =>
    rename_i hstop
    -- no bits, or no coefficients: the plane ends here
    rcases bs with _ | ⟨b, bs⟩
    · rw [readTests]
      exact ⟨rfl, h, rfl, hn⟩
    · rw [List.length_cons] at hlen
      rw [readTests, if_neg (by omega)]
      exact ⟨rfl, h, rfl, hn⟩

theorem getD_take (l : List Bool) (m i : ℕ) :
    (l.take m).getD i false = (decide (i < m) && l.getD i false) := by
  rw [List.getD_eq_getElem?_getD, List.getElem?_take, List.getD_eq_getElem?_getD]
  by_cases hi : i < m
  · simp [hi]
  · simp [hi]

theorem getLsbD_peek_low (h : At data s bs) {m : ℕ} (hm : m ≤ 56) (i : ℕ) :
    (peek (padded data) s.pos &&& lowMask m).getLsbD i = (decide (i < m) && bs.getD i false) := by
  rw [BitVec.getLsbD_and, getLsbD_lowMask (by omega), Bool.and_comm]
  by_cases hi : i < m
  · rw [getLsbD_peek h (by omega)]
  · rw [decide_eq_false hi, Bool.false_and, Bool.false_and]

/-- **The verbatim bits**, also of a plane that has more of them than a peek. -/
theorem verbatim_spec (h : At data s bs) (hn : s.n ≤ 64) :
    (verbatim (padded data) s).1 = ofBits (bs.take (min s.n bs.length)) ∧
      At data (verbatim (padded data) s).2 (bs.drop (min s.n bs.length)) := by
  have hlen := h.length
  refine ⟨?_, ?_⟩
  · refine BitVec.eq_of_getLsbD_eq fun i hi => ?_
    rw [getLsbD_ofBits, decide_eq_true hi, Bool.true_and, getD_take, hlen]
    unfold verbatim
    dsimp only
    by_cases hm : min s.n s.bits ≤ 56
    · rw [if_pos hm]
      by_cases h0 : min s.n s.bits = 0
      · rw [if_neg (not_not.mpr h0), h0]
        exact BitVec.getLsbD_zero
      · rw [if_pos h0, getLsbD_peek_low h hm]
    · have hlow : (0xffffffff#64 : Word) = lowMask 32 := by decide
      have h32 := h.advance (k := 32) (by omega) s.n
      have hget : (bs.drop 32).getD (i - 32) false = bs.getD (32 + (i - 32)) false := by
        rw [List.getD_eq_getElem?_getD, List.getElem?_drop, ← List.getD_eq_getElem?_getD]
      rw [if_neg hm, hlow, BitVec.getLsbD_or, getLsbD_peek_low h (by norm_num), BitVec.getLsbD_shiftLeft,
        decide_eq_true hi, Bool.true_and, getLsbD_peek_low h32 (by omega), hget]
      -- the low 32 bits come from the first word, the others from the second
      by_cases hi32 : i < 32
      · simp [hi32]
        omega
      · have hsub : 32 + (i - 32) = i := by omega
        have hiff : i - 32 < min s.n s.bits - 32 ↔ i < min s.n s.bits := by omega
        simp [hi32, hsub, hiff]
  · rw [hlen]
    exact h.advance (Nat.min_le_right _ _) s.n

theorem n_verbatim (s : Cursor) (buf : List UInt8) : (verbatim buf s).2.n = s.n := rfl

theorem plane_spec (h : At data s bs) (hn : s.n ≤ 64) :
    Reads data (plane (padded data) s) (serialPlane s.n bs) := by
  obtain ⟨hx, hat⟩ := verbatim_spec h hn
  have hbelow : Below (verbatim (padded data) s).1 s.n := by
    rw [hx]
    exact below_ofBits ((List.length_take_le _ _).trans (Nat.min_le_left _ _))
  have hr := groupTests_spec hat (hbelow : Below _ (verbatim (padded data) s).2.n) hn
  rw [n_verbatim, hx] at hr
  unfold plane serialPlane
  dsimp only
  rw [hx]
  exact hr

/-- **A decoder that reads each plane like the serial code** returns the same planes. -/
theorem planesLoop_spec {plane : Cursor → Word × Cursor}
    (hplane : ∀ s bs, At data s bs → s.n ≤ 64 → Reads data (plane s) (serialPlane s.n bs)) :
    ∀ (k : ℕ) (s : Cursor) (bs : List Bool), At data s bs → s.n ≤ 64 →
      planesLoop plane k s = serialPlanesFrom k s.n bs
  | 0, _, _, _, _ => rfl
  | k + 1, s, bs, h, hn => by
    have hlen := h.length
    have hr := hplane s bs h hn
    have ih := planesLoop_spec hplane k (plane s).2 (serialPlane s.n bs).2.2 hr.rest hr.n_le
    unfold planesLoop serialPlanesFrom
    by_cases hb : bs = []
    · rw [if_pos hb, if_pos (by rw [← hlen, hb]; rfl)]
    · have hb' : s.bits ≠ 0 := by
        rw [← hlen]
        exact fun h0 => hb (List.length_eq_zero_iff.mp h0)
      rw [if_neg hb, if_neg hb']
      dsimp only
      rw [hr.word, ih, hr.n_eq]

end Spec

/-- **`decode_planes` is the bit-serial embedded code**: of the bits from `pos` to the end of a block. -/
theorem decode_planes_serial (data : List UInt8) {pos bits : ℕ} (h : pos + bits = 8 * data.length) :
    decodePlanes (padded data) pos bits = serialPlanes ((bitsOf data).drop pos) :=
  planesLoop_spec (fun _ _ hs hn => plane_spec hs hn) 32 _ _ ⟨h, rfl⟩ (Nat.zero_le 64)

theorem decode_planes_serial_short : decodePlanes (padded [0xff, 0x2c]) 9 7 =
    serialPlanes [false, true, true, false, true, false, false] :=
  decode_planes_serial [0xff, 0x2c] rfl

end SkipZFP.Decode.Planes
