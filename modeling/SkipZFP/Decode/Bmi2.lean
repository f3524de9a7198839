import SkipZFP.Decode.Planes

/-! # The bit planes of a block with BMI2

`decodePlanesBmi2` is `decode_planes_bmi2`, which reads the group tests of a whole plane from one window:
its set bits are in turn group tests and coefficients, up to the first coefficient that is followed by a
zero. `fastTests` is that step; where it does not apply, the plane goes through `groupTests`.

* `readTests_prefix`: what the serial code has read after `i` bits of such a window.
* `fastTests_spec`: a plane that is read at once is read like the serial code reads it.
* `decode_planes_bmi2`: **both decoders return the same planes.** -/

namespace SkipZFP.Decode.Bmi2

open SkipZFP.Lib.Bits SkipZFP.Lib.Words SkipZFP.Decode.Planes

section Decoder
variable (buf : List UInt8)

/-- The group tests of a plane, read at once: `none` for a plane the window does not hold whole, that
would run out of bits, or that could reach coefficient 63. -/
def fastTests (x : Word) (s : Cursor) : Option (Word × Cursor) :=
  if 0 < s.bits ∧ s.n < 64 then
    let w := peek buf s.pos &&& lowMask 57
    if w.getLsbD 0 = false then some (x, { s with bits := s.bits - 1, pos := s.pos + 1 })
    else
      let g := pdep 0x5555555555555555#64 w
      let t := pdep 0xAAAAAAAAAAAAAAAA#64 w
      let stop := t &&& ~~~(w >>> 1) &&& lowMask 56
      if stop ≠ 0#64 then
        let e := ctz stop
        let used := e + 2
        let keep := ((2#64 <<< e) - 1#64) &&& ~~~g
        let add := popcount keep
        if used ≤ s.bits ∧ s.n + add < 63 then
          some (x ||| pext w keep <<< s.n,
            { n := s.n + add, bits := s.bits - used, pos := s.pos + used })
        else none
      else none
  else none

/-- One plane: its verbatim bits, then its group tests, at once where that is possible. -/
def planeBmi2 (s : Cursor) : Word × Cursor :=
  let v := verbatim buf s
  match fastTests buf v.1 v.2 with
  | some p => p
  | none => groupTests buf v.1 v.2

/-- **`decode_planes_bmi2`**. -/
def decodePlanesBmi2 (pos bits : ℕ) : List Word :=
  planesLoop (planeBmi2 buf) 32 { n := 0, bits := bits, pos := pos }

end Decoder

/-! ### The serial code, bit by bit -/

/-- The serial code after a group test that is one: the scan, then the next group test. -/
def afterTest (n : ℕ) (x : Word) (bs : List Bool) : ℕ × Word × List Bool :=
  let r := readRun n bs
  readTests (r.1 + 1) (x ||| 1#64 <<< r.1) r.2

section Serial
variable {n : ℕ} (x : Word) (bs : List Bool)

theorem readTests_false (hn : n < 64) : readTests n x (false :: bs) = (n, x, bs) := by
  rw [readTests, if_pos hn, if_neg Bool.false_ne_true]

theorem readTests_true (hn : n < 64) : readTests n x (true :: bs) = afterTest n x bs := by
  rw [readTests, if_pos hn, if_pos rfl]
  rfl

theorem afterTest_false (hn : n < 63) : afterTest n x (false :: bs) = afterTest (n + 1) x bs := by
  unfold afterTest
  rw [readRun, if_pos hn, if_neg Bool.false_ne_true]

theorem afterTest_true (hn : n < 63) :
    afterTest n x (true :: bs) = readTests (n + 1) (x ||| 1#64 <<< n) bs := by
  unfold afterTest
  rw [readRun, if_pos hn, if_pos rfl]

end Serial

/-! ### A window -/

/-- The bits of a window that are not group tests: every other set bit is one, the first included. -/
def isCoef (w : Word) (i : ℕ) : Bool := !(w.getLsbD i && decide (rank w i % 2 = 0))

/-- The coefficient bits among the first `i` bits of a window. -/
def coefs (w : Word) (i : ℕ) : List Bool := ((List.range i).filter (isCoef w)).map w.getLsbD

section Window
variable {w : Word}

theorem coefs_succ (i : ℕ) :
    coefs w (i + 1) = coefs w i ++ if isCoef w i then [w.getLsbD i] else [] := by
  unfold coefs
  rw [List.range_succ, List.filter_append, List.map_append]
  congr 1
  by_cases h : isCoef w i = true
  · simp [h]
  · simp [h]

theorem length_coefs_mono {i j : ℕ} (h : i ≤ j) : (coefs w i).length ≤ (coefs w j).length := by
  induction j, h using Nat.le_induction with
  | base => exact le_rfl
  | succ j _ ih =>
    rw [coefs_succ, List.length_append]
    exact ih.trans (Nat.le_add_right _ _)

/-- Where every coefficient before bit `e` is followed by a one, a group test is due only at ones. -/
theorem getLsbD_of_even {e : ℕ} (h0 : w.getLsbD 0 = true)
    (hnext : ∀ i < e, w.getLsbD i = true → rank w i % 2 = 1 → w.getLsbD (i + 1) = true) :
    ∀ i ≤ e, rank w i % 2 = 0 → w.getLsbD i = true
  | 0, _, _ => h0
  | i + 1, hi, heven => by
    have ih := getLsbD_of_even h0 hnext i (by omega)
    rw [rank_succ] at heven
    by_cases hw : w.getLsbD i = true
    · rw [hw, Bool.toNat_true] at heven
      exact hnext i (by omega) hw (by omega)
    · rw [Bool.not_eq_true] at hw
      rw [hw, Bool.toNat_false] at heven
      exact absurd (ih (by omega)) (by rw [hw]; exact Bool.false_ne_true)

/-- **After `i` bits of a window** the serial code has read the coefficients among them, and what it reads
next is a group test when an even number of them is set. -/
theorem readTests_prefix {n e : ℕ} (x : Word) {bs : List Bool} (hlen : e < bs.length)
    (hbs : ∀ i ≤ e, bs.getD i false = w.getLsbD i)
    (heven : ∀ i ≤ e, rank w i % 2 = 0 → w.getLsbD i = true)
    (hn : n + (coefs w (e + 1)).length < 63) : ∀ i ≤ e + 1,
    readTests n x bs =
      (if rank w i % 2 = 0 then readTests else afterTest) (n + (coefs w i).length)
        (x ||| ofBits (coefs w i) <<< n) (bs.drop i)
  | 0, _ => by
    have h0 : ofBits (coefs w 0) = 0#64 := rfl
    rw [h0, BitVec.zero_shiftLeft, BitVec.or_zero]
    rfl
  | i + 1, hi => by
    have ih := readTests_prefix x hlen hbs heven hn i (by omega)
    have hmono : (coefs w i).length ≤ (coefs w (e + 1)).length := length_coefs_mono (by omega)
    have hdrop : bs.drop i = w.getLsbD i :: bs.drop (i + 1) := by
      rw [List.drop_eq_getElem_cons (by omega), ← hbs i (by omega), List.getD_eq_getElem _ _ (by omega)]
    rw [ih, hdrop, rank_succ]
    by_cases hr : rank w i % 2 = 0
    · -- a group test, and it is one
      have hw := heven i (by omega) hr
      have hc : isCoef w i = false := by simp [isCoef, hw, hr]
      rw [if_pos hr, hw, readTests_true _ _ (by omega), coefs_succ, hc,
        if_neg (by rw [Bool.toNat_true]; omega)]
      simp
    · have hc : isCoef w i = true := by simp [isCoef, hr]
      rw [if_neg hr, coefs_succ, hc, if_pos rfl, List.length_append, List.length_singleton]
      rcases hw : w.getLsbD i
      · rw [afterTest_false _ _ (by omega), ofBits_concat_false, if_neg (by rw [Bool.toNat_false]; omega),
          Nat.add_assoc]
      · rw [afterTest_true _ _ (by omega), ofBits_concat_true, if_pos (by rw [Bool.toNat_true]; omega),
          BitVec.shiftLeft_or_distrib, ← BitVec.or_assoc, ← BitVec.shiftLeft_add,
          Nat.add_comm (coefs w i).length n, Nat.add_assoc]

theorem getLsbD_keep {e : ℕ} (he : e < 56) (i : ℕ) :
    (((2#64 <<< e) - 1#64) &&& ~~~ pdep 0x5555555555555555#64 w).getLsbD i =
      (decide (i < e + 1) && isCoef w i) := by
  have h2 : (2#64 <<< e) - 1#64 = lowMask (e + 1) := by
    rw [lowMask, Nat.add_comm, BitVec.shiftLeft_add]
    rfl
  rw [h2, BitVec.getLsbD_and, getLsbD_lowMask (by omega)]
  by_cases hi : i < e + 1
  · rw [decide_eq_true hi, Bool.true_and, Bool.true_and, BitVec.getLsbD_not, decide_eq_true (by omega),
      Bool.true_and, getLsbD_pdep, getLsbD_even ((rank_le w i).trans_lt (by omega))]
    rfl
  · rw [decide_eq_false hi, Bool.false_and, Bool.false_and]

theorem getLsbD_stop (i : ℕ) :
    (pdep 0xAAAAAAAAAAAAAAAA#64 w &&& ~~~(w >>> 1) &&& lowMask 56).getLsbD i =
      (decide (i < 56) && (w.getLsbD i && decide (rank w i % 2 = 1) && !w.getLsbD (i + 1))) := by
  rw [BitVec.getLsbD_and, BitVec.getLsbD_and, getLsbD_lowMask (by norm_num), BitVec.getLsbD_not,
    BitVec.getLsbD_ushiftRight, Nat.add_comm 1 i, getLsbD_pdep]
  by_cases hi : i < 56
  · have h64 : decide (i < 64) = true := decide_eq_true (by omega)
    rw [getLsbD_odd ((rank_le w i).trans_lt (by omega)), decide_eq_true hi, h64, Bool.true_and,
      Bool.true_and, Bool.and_true]
  · rw [decide_eq_false hi, Bool.and_false, Bool.false_and]

/-- **A plane whose window begins with a one** and whose first coefficient followed by a zero is bit `e`,
as the serial code reads it. -/
theorem readTests_window {n e : ℕ} (x : Word) {bs : List Bool} (hlen : e + 2 ≤ bs.length)
    (hbs : ∀ i ≤ e + 1, bs.getD i false = w.getLsbD i) (h0 : w.getLsbD 0 = true)
    (hnext : ∀ i < e, w.getLsbD i = true → rank w i % 2 = 1 → w.getLsbD (i + 1) = true)
    (he : w.getLsbD e = true) (hrank : rank w e % 2 = 1) (hzero : w.getLsbD (e + 1) = false)
    (hn : n + (coefs w (e + 1)).length < 63) :
    readTests n x bs = (n + (coefs w (e + 1)).length,
      x ||| ofBits (coefs w (e + 1)) <<< n, bs.drop (e + 2)) := by
  have hread := readTests_prefix x (by omega) (fun i hi => hbs i (by omega)) (getLsbD_of_even h0 hnext)
    hn (e + 1) le_rfl
  have heven : rank w (e + 1) % 2 = 0 := by
    rw [rank_succ, he, Bool.toNat_true]
    omega
  have hdrop : bs.drop (e + 1) = false :: bs.drop (e + 2) := by
    rw [List.drop_eq_getElem_cons (by omega), ← hzero, ← hbs (e + 1) le_rfl,
      List.getD_eq_getElem _ _ (by omega)]
  rw [hread, if_pos heven, hdrop, readTests_false _ _ (by omega)]

end Window

section Spec
variable {data : List UInt8} {s : Cursor} {bs : List Bool}

/-- **A plane that is read at once** is read like the serial code reads it. -/
theorem fastTests_spec {x : Word} {p : Word × Cursor} (h : At data s bs)
    (hp : fastTests (padded data) x s = some p) : Reads data p (readTests s.n x bs) := by
  have hlen := h.length
  unfold fastTests at hp
  by_cases hgo : 0 < s.bits ∧ s.n < 64
  case neg =>
    rw [if_neg hgo] at hp
    cases hp
  rw [if_pos hgo] at hp
  dsimp only at hp
  have hwin : ∀ i < 57, (peek (padded data) s.pos &&& lowMask 57).getLsbD i = bs.getD i false := by
    intro i hi
    rw [BitVec.getLsbD_and, getLsbD_peek h hi, getLsbD_lowMask (by norm_num), decide_eq_true hi,
      Bool.and_true]
  generalize peek (padded data) s.pos &&& lowMask 57 = w at hp hwin
  by_cases h0 : w.getLsbD 0 = false
  · -- no new coefficient in this plane
    rw [if_pos h0] at hp
    obtain ⟨b, bs, rfl⟩ := List.exists_cons_of_length_pos (by omega : 0 < bs.length)
    rw [hwin 0 (by norm_num), List.getD_cons_zero] at h0
    subst h0
    cases hp
    rw [readTests_false _ _ hgo.2]
    exact ⟨rfl, h.advance (k := 1) hgo.1 s.n, rfl, hgo.2.le⟩
  rw [if_neg h0] at hp
  rw [Bool.not_eq_false] at h0
  by_cases hstop : pdep 0xAAAAAAAAAAAAAAAA#64 w &&& ~~~(w >>> 1) &&& lowMask 56 ≠ 0#64
  case neg =>
    rw [if_neg hstop] at hp
    cases hp
  rw [if_pos hstop] at hp
  have hctz := getLsbD_ctz (ctz_lt_of_ne_zero hstop)
  have hbefore := fun i => @getLsbD_of_lt_ctz
    (pdep 0xAAAAAAAAAAAAAAAA#64 w &&& ~~~(w >>> 1) &&& lowMask 56) i
  generalize ctz (pdep 0xAAAAAAAAAAAAAAAA#64 w &&& ~~~(w >>> 1) &&& lowMask 56) = e at hp hctz hbefore
  rw [getLsbD_stop, Bool.and_eq_true, Bool.and_eq_true, Bool.and_eq_true, decide_eq_true_eq,
    decide_eq_true_eq, Bool.not_eq_true'] at hctz
  obtain ⟨he56, ⟨hwe, hrank⟩, hzero⟩ := hctz
  have hkeep := fun i => getLsbD_keep (w := w) he56 i
  rw [pext_eq (by omega : e + 1 ≤ 64) hkeep, popcount_eq (by omega : e + 1 ≤ 64) hkeep] at hp
  have hnext : ∀ i < e, w.getLsbD i = true → rank w i % 2 = 1 → w.getLsbD (i + 1) = true := by
    intro i hi hw hr
    have hb := hbefore i hi
    rw [getLsbD_stop, hw, hr] at hb
    by_contra hc
    rw [Bool.not_eq_true] at hc
    simp [hc] at hb
    omega
  have hcount : (coefs w (e + 1)).length = ((List.range (e + 1)).filter (isCoef w)).length := by
    rw [coefs, List.length_map]
  by_cases hfit : e + 2 ≤ s.bits ∧ s.n + ((List.range (e + 1)).filter (isCoef w)).length < 63
  case neg =>
    rw [if_neg hfit] at hp
    cases hp
  rw [if_pos hfit] at hp
  cases hp
  rw [readTests_window x (by omega) (fun i hi => (hwin i (by omega)).symm) h0 hnext hwe hrank hzero
    (by omega), hcount]
  exact ⟨rfl, h.advance hfit.1 _, rfl, by show s.n + _ ≤ 64; omega⟩

theorem planeBmi2_spec (h : At data s bs) (hn : s.n ≤ 64) :
    Reads data (planeBmi2 (padded data) s) (serialPlane s.n bs) := by
  obtain ⟨hx, hat⟩ := verbatim_spec h hn
  have hslow := plane_spec h hn
  unfold planeBmi2 serialPlane
  unfold plane serialPlane at hslow
  dsimp only at hslow ⊢
  rcases hf : fastTests (padded data) (verbatim (padded data) s).1 (verbatim (padded data) s).2 with _ | p
  · exact hslow
  · have hr := fastTests_spec hat hf
    rw [hx] at hr
    exact hr

end Spec

/-- **`decode_planes_bmi2` and `decode_planes`** return the same planes, as many and as words: of the bits
from `pos` to the end of a block. -/
theorem decode_planes_bmi2 (data : List UInt8) {pos bits : ℕ} (h : pos + bits = 8 * data.length) :
    decodePlanesBmi2 (padded data) pos bits = decodePlanes (padded data) pos bits := by
  have hfast := planesLoop_spec (fun _ _ hs hn => planeBmi2_spec hs hn) 32
    { n := 0, bits := bits, pos := pos } _ ⟨h, rfl⟩ (Nat.zero_le 64)
  have hslow := planesLoop_spec (fun _ _ hs hn => plane_spec hs hn) 32
    { n := 0, bits := bits, pos := pos } _ ⟨h, rfl⟩ (Nat.zero_le 64)
  exact hfast.trans hslow.symm

theorem decode_planes_bmi2_short : decodePlanesBmi2 (padded [0xff, 0x2c]) 9 7 =
    decodePlanes (padded [0xff, 0x2c]) 9 7 :=
  decode_planes_bmi2 [0xff, 0x2c] rfl

end SkipZFP.Decode.Bmi2
