import SkipZFP.Lib.Next
import SkipZFP.Plan.Classify

/-! # The error codes in rounded arithmetic

`block_error_codes` divides each error by the unit's bound, and the planner multiplies the code by the
bound again. Both round to 53 bits; the products of a float32 and a code are exact.

* `codeOf_covers`: **one increment is enough**. Where the bound of the rounded-up quotient falls short of
  the error, that of the next code does not.
* `error_codes_safe`: the codes of a unit with a finite bound, from the writer to the planner.
* `codes_safe_iff`: **the codes are safe exactly when the bound is finite**. `szfp_meta` stores an
  infinity for an error that is too large for a float32, and infinity times code 0 is not a number. -/

namespace SkipZFP.Plan.Codes

open SkipZFP.Lib.Rows SkipZFP.Lib.Double SkipZFP.Lib.Float32 SkipZFP.Lib.Precision SkipZFP.Lib.Next
open SkipZFP.Lib.Grid SkipZFP.Codec.Meta SkipZFP.Plan.Classify

/-- `block_error_codes`, from the errors of the blocks on. -/
def errorCodes (fl : ℚ → ℚ) (err : List Dbl) (eps : F32) : Except String (List UInt8) :=
  let e := eps.val
  if e = .fin 0 then
    if ∃ x ∈ err, x ≠ .fin 0 then .error "a block has an error but the unit's bound is 0"
    else .ok (err.map fun _ => 0)
  else
    let q := err.map (codeOf fl e)
    if (∃ x ∈ q, .fin 15 < x) ∨ ∃ p ∈ q.zip err, codeBound fl e p.1 < p.2 then
      .error "the unit's error bound does not cover a block"
    else .ok (q.map asU8)

theorem blockErrorCodes_eq (shape : Tri) (chunk dec : Tri → F32) (fl : ℚ → ℚ) (eps : F32) :
    blockErrorCodes shape chunk dec fl eps =
      errorCodes fl ((unitBlocks shape).map (blockErr chunk dec fl)) eps := rfl

/-! ### One code -/

section Code
variable {fl : ℚ → ℚ} (h : IsRounding 53 fl) {eps : F32} {e : ℚ} (heps : eps.val = .fin e) (he : 0 < e)

theorem hasBits_code {c : ℕ} (hc : c ≤ 15) : HasBits 4 (c : ℚ) := by
  have h4 : HasBits 4 ((c : ℤ) : ℚ) := hasBits_intCast (by rw [abs_of_nonneg (by omega)]; norm_num; omega)
  exact_mod_cast h4

include heps in
theorem hasBits_product {c : ℕ} (hc : c ≤ 15) : HasBits 53 (e * c) :=
  ((hasBits_val heps).mul (hasBits_code hc)).mono (by norm_num)

theorem npMin_ceil_spec {b : ℚ} (hb0 : 0 ≤ b) :
    ∃ c : ℕ, c ≤ 15 ∧ npMin (.fin ⌈b⌉) (.fin 15) = .fin c ∧ (c < 15 → b ≤ c) := by
  have hceil : ((⌈b⌉.toNat : ℕ) : ℚ) = (⌈b⌉ : ℚ) := by
    exact_mod_cast congrArg (Int.cast (R := ℚ)) (Int.toNat_of_nonneg (Int.ceil_nonneg hb0))
  unfold npMin
  rw [if_neg (by simp)]
  by_cases hbig : (15 : ℚ) < ⌈b⌉
  · rw [if_pos ((Dbl.fin_lt_fin _ _).mpr hbig)]
    exact ⟨15, le_rfl, rfl, fun hlt => absurd hlt (lt_irrefl _)⟩
  · rw [if_neg fun hlt => hbig ((Dbl.fin_lt_fin _ _).mp hlt)]
    refine ⟨⌈b⌉.toNat, ?_, by rw [hceil], fun _ => by rw [hceil]; exact Int.le_ceil b⟩
    rw [not_lt, ← hceil] at hbig
    exact_mod_cast hbig

include h heps

/-- The bound of a code: the product is exact, the quotient is rounded. -/
theorem codeBound_eq {c : ℕ} (hc : c ≤ 15) : codeBound fl (.fin e) (.fin c) = .fin (fl (e * c / 15)) := by
  rw [codeBound_fin, h.eq_self _ (hasBits_product heps hc)]

include he

theorem codeBound_le {c : ℕ} (hc : c ≤ 15) : 0 ≤ fl (e * c / 15) ∧ fl (e * c / 15) ≤ e := by
  have hc' : (c : ℚ) ≤ 15 := by exact_mod_cast hc
  have hle : e * c / 15 ≤ e := by
    rw [div_le_iff₀ (by norm_num)]
    exact mul_le_mul_of_nonneg_left hc' he.le
  exact ⟨h.nonneg (by positivity), h.le_of_le ((hasBits_val heps).mono (by norm_num)) hle⟩

/-- **One increment is enough**: the code of an error is at most 15 and its bound is not below the
error. -/
theorem codeOf_covers {r : ℚ} (hr : HasBits 53 r) (h0 : 0 ≤ r) (hre : r ≤ e) :
    ∃ c : ℕ, c ≤ 15 ∧ codeOf fl (.fin e) (.fin r) = .fin c ∧ r ≤ fl (e * c / 15) := by
  set b := fl (fl (15 * r) / e) with hb
  have hb0 : 0 ≤ b := h.nonneg (div_nonneg (h.nonneg (by positivity)) he.le)
  -- the code before the check
  obtain ⟨c, hc15, hmin, hcb⟩ : ∃ c : ℕ, c ≤ 15 ∧
      npMin (npCeil (Dbl.div fl (Dbl.mul fl (.fin 15) (.fin r)) (.fin e))) (.fin 15) = .fin c ∧
      (c < 15 → b ≤ c) := by
    rw [Dbl.mul_fin, Dbl.div_fin _ _ he.ne', ← hb]
    exact npMin_ceil_spec hb0
  have hcode : codeOf fl (.fin e) (.fin r) =
      if codeBound fl (.fin e) (.fin c) < .fin r then Dbl.add id (.fin c) (.fin 1) else .fin c := by
    unfold codeOf
    dsimp only
    rw [hmin]
  rw [codeBound_eq h heps hc15] at hcode
  by_cases hshort : fl (e * c / 15) < r
  · rw [if_pos ((Dbl.fin_lt_fin _ _).mpr hshort), Dbl.add_fin, id_eq] at hcode
    -- code 15 stands for the unit's bound itself
    have hc : c < 15 := by
      refine lt_of_le_of_ne hc15 fun h15 => ?_
      rw [h15, Nat.cast_ofNat, mul_div_assoc, div_self (by norm_num), mul_one,
        h.eq_self _ ((hasBits_val heps).mono (by norm_num))] at hshort
      linarith
    refine ⟨c + 1, hc, by rw [hcode]; push_cast; rfl, h.le_of_ge hr ?_⟩
    -- a product below `15 * r` would have rounded the quotient up to the next code
    by_contra hlt
    rw [not_le, div_lt_iff₀ (by norm_num)] at hlt
    have h1 := h.le_of_ge (hasBits_product heps (c := c + 1) hc) (show e * (c + 1 : ℕ) ≤ 15 * r by linarith)
    have h2 : ((c + 1 : ℕ) : ℚ) ≤ fl (15 * r) / e := by
      rw [le_div_iff₀ he, mul_comm]
      exact h1
    have h3 := h.le_of_ge ((hasBits_code (c := c + 1) hc).mono (by norm_num)) h2
    have h4 := hcb hc
    push_cast at h3
    linarith
  · rw [if_neg fun hlt => hshort ((Dbl.fin_lt_fin _ _).mp hlt)] at hcode
    exact ⟨c, hc15, hcode, not_lt.mp hshort⟩

end Code

/-! ### The codes of a unit -/

section Unit
variable {fl : ℚ → ℚ} (h : IsRounding 53 fl) {eps : F32} {e : ℚ} (heps : eps.val = .fin e) (he : 0 < e)

include h heps he in
/-- **No unit is refused** whose errors are at most its bound. -/
theorem errorCodes_ok {err : List ℚ} (herr : ∀ r ∈ err, HasBits 53 r ∧ 0 ≤ r ∧ r ≤ e) :
    ∃ q : List UInt8, errorCodes fl (err.map .fin) eps = .ok q ∧ q.length = err.length ∧
      ∀ (i : ℕ) (r : ℚ), err[i]? = some r →
        ∃ c : ℕ, c ≤ 15 ∧ q[i]? = some (UInt8.ofNat c) ∧ r ≤ fl (e * c / 15) := by
  have hcode : ∀ r ∈ err, ∃ c : ℕ, c ≤ 15 ∧ codeOf fl (.fin e) (.fin r) = .fin c ∧ r ≤ fl (e * c / 15) :=
    fun r hr => codeOf_covers h heps he (herr r hr).1 (herr r hr).2.1 (herr r hr).2.2
  have hne : eps.val ≠ .fin 0 := by
    rw [heps]
    exact fun h0 => he.ne' (Dbl.fin.inj h0)
  have hfine : ¬ ((∃ x ∈ (err.map Dbl.fin).map (codeOf fl (.fin e)), .fin 15 < x) ∨
      ∃ p ∈ ((err.map Dbl.fin).map (codeOf fl (.fin e))).zip (err.map Dbl.fin),
        codeBound fl (.fin e) p.1 < p.2) := by
    rw [List.map_map]
    rintro (⟨x, hx, hlt⟩ | ⟨p, hp, hlt⟩)
    · obtain ⟨r, hr, rfl⟩ := List.mem_map.mp hx
      obtain ⟨c, hc, heq, -⟩ := hcode r hr
      rw [Function.comp_apply, heq, Dbl.fin_lt_fin] at hlt
      have : (c : ℚ) ≤ 15 := by exact_mod_cast hc
      linarith
    · rw [List.zip_map', List.mem_map] at hp
      obtain ⟨r, hr, rfl⟩ := hp
      obtain ⟨c, hc, heq, hle⟩ := hcode r hr
      rw [Function.comp_apply, heq, codeBound_eq h heps hc, Dbl.fin_lt_fin] at hlt
      linarith
  refine ⟨((err.map Dbl.fin).map (codeOf fl (.fin e))).map asU8, ?_, by simp, fun i r hi => ?_⟩
  · unfold errorCodes
    dsimp only
    rw [if_neg hne, heps, if_neg hfine]
  · obtain ⟨c, hc, heq, hle⟩ := hcode r (List.mem_of_getElem? hi)
    refine ⟨c, hc, ?_, hle⟩
    simp only [List.getElem?_map, hi, Option.map_some, heq, asU8, Dbl.toRat_fin, Int.floor_natCast,
      Int.toNat_natCast]

/-- **A code after ranking and packing** is at its block's position in storage order. -/
theorem codeAt_ranked {q : List UInt8} (hq : ∀ x ∈ q, x.toNat < 16) {rk : List ℕ}
    (hrk : rk.Perm (List.range q.length)) {i j : ℕ} (hj : rk[i]? = some j) {x : UInt8}
    (hx : q[i]? = some x) : codeAt (packCodes (rankedBytes rk q)) j = x.toNat := by
  have hnd : rk.Nodup := hrk.nodup_iff.mpr List.nodup_range
  have hlt : ∀ p ∈ rk, p < q.length := fun p hp => List.mem_range.mp (hrk.mem_iff.mp hp)
  have hlen : rk.length = q.length := by rw [hrk.length_eq, List.length_range]
  obtain ⟨hi, rfl⟩ := List.getElem?_eq_some_iff.mp hj
  obtain ⟨hi', -⟩ := List.getElem?_eq_some_iff.mp hx
  refine codeAt_packCodes _ ?_ ?_
  · exact forall_mem_scatter (fun p hp => hrk.mem_iff.mpr (List.mem_range.mpr (by simpa using hp))) hnd
      (fun p hp => by simpa using hlt p hp) hlen hq
  · rw [rankedBytes, getElem?_scatter rk q _ hnd (fun p hp => by simpa using hlt p hp) i hi hi', hx]

/-- A smaller bound widens the range of a block less. -/
theorem widened_mono (hfl : Monotone fl) {b : ℚ} (hbe : b ≤ e) {x : Dbl} (hx : x ≠ .nan) :
    Dbl.sub fl x (.fin e) ≤ Dbl.sub fl x (.fin b) ∧ Dbl.add fl x (.fin b) ≤ Dbl.add fl x (.fin e) := by
  cases x with
  | nan => exact absurd rfl hx
  | ninf => exact ⟨Dbl.ninf_le_ninf, Dbl.ninf_le_ninf⟩
  | pinf => exact ⟨Dbl.pinf_le_pinf, Dbl.pinf_le_pinf⟩
  | fin x =>
    rw [Dbl.sub_fin, Dbl.sub_fin, Dbl.add_fin, Dbl.add_fin, Dbl.fin_le_fin, Dbl.fin_le_fin]
    exact ⟨hfl (by linarith), hfl (by linarith)⟩

/-- **A block that is decided with the unit's bound** is decided with a smaller one. -/
theorem stateOf_decided (hfl : Monotone fl) {b : ℚ} (hbe : b ≤ e) {bmin bmax lo hi : Dbl}
    (hst : stateOf fl bmin bmax (.fin e) lo hi ≠ .MAYBE) :
    stateOf fl bmin bmax (.fin b) lo hi ≠ .MAYBE := by
  have hnan : ∀ {y : Dbl}, Dbl.sub fl .nan y = .nan ∧ Dbl.add fl .nan y = .nan := ⟨rfl, rfl⟩
  have hlow : ∀ {l : Dbl}, l < Dbl.sub fl bmin (.fin e) → l < Dbl.sub fl bmin (.fin b) := fun hl => by
    refine Dbl.lt_of_lt_of_le hl (widened_mono hfl hbe ?_).1
    rintro rfl
    exact Dbl.not_lt_nan _ (hnan.1 ▸ hl)
  have hhigh : ∀ {l : Dbl}, Dbl.add fl bmax (.fin e) ≤ l → Dbl.add fl bmax (.fin b) ≤ l := fun hl => by
    refine Dbl.le_trans (widened_mono hfl hbe ?_).2 hl
    rintro rfl
    exact Dbl.not_nan_le _ (hnan.2 ▸ hl)
  unfold stateOf at hst ⊢
  by_cases hin : lo < Dbl.sub fl bmin (.fin e) ∧ Dbl.add fl bmax (.fin e) ≤ hi
  · rw [if_pos ⟨hlow hin.1, hhigh hin.2⟩]
    simp
  · rw [if_neg hin] at hst
    have hout : Dbl.add fl bmax (.fin e) ≤ lo ∨ hi < Dbl.sub fl bmin (.fin e) := by
      by_contra hout
      exact hst (if_neg hout)
    rw [if_pos (hout.imp hhigh hlow)]
    split_ifs <;> simp

end Unit

/-! ### From the writer to the planner -/

/-- What the planner makes of code `c`, at position `j` of a record of `n` blocks with the bound `eps`. -/
structure ReadsCode (fl : ℚ → ℚ) (cm : List UInt8) (n j : ℕ) (eps : F32) (c : ℕ) : Prop where
  error : recError fl cm n true j = codeBound fl eps.val (.fin c)
  le_eps : recError fl cm n true j ≤ eps.val
  listed : ∃ b, (listedError fl cm n true j).val = .fin b ∧ recError fl cm n true j ≤ .fin b
  decided : ∀ slack lo hi, classifyBlock fl cm n false j slack lo hi ≠ .MAYBE →
    classifyBlock fl cm n true j slack lo hi ≠ .MAYBE

/-- The record of a unit: least and greatest value, bound, offsets and codes. -/
theorem readsCode_of_codeAt {fl : ℚ → ℚ} (h : IsRounding 53 fl) {eps : F32} {e : ℚ}
    (heps : eps.val = .fin e)
    (he : 0 < e) {head offs codes : List UInt8} {n j c : ℕ} (hhead : head.length = 8)
    (hoffs : offs.length = 2 * n) (hc : c ≤ 15) (hcode : codeAt codes j = c) :
    ReadsCode fl (head ++ eps.bytes ++ offs ++ codes) n j eps c := by
  set cm := head ++ eps.bytes ++ offs ++ codes with hcm
  have hlen : (head ++ eps.bytes).length = 12 := by rw [List.length_append, hhead, F32.length_bytes]
  have heps' : recEps cm = eps := by
    rw [recEps, hcm, List.append_assoc, List.append_assoc, List.drop_left' hhead]
    exact ofBytes_bytes_append eps _
  have hcodes : recCodes cm n true = some codes := by
    rw [recCodes, if_pos rfl, hcm, List.append_assoc (head ++ eps.bytes), List.drop_left' hlen,
      List.drop_left' hoffs]
  have herror : recError fl cm n true j = codeBound fl eps.val (.fin c) := by
    unfold recError blockError
    rw [hcodes, heps']
    dsimp only
    rw [hcode]
    rfl
  obtain ⟨h0, hle⟩ := codeBound_le h heps he hc
  have hbound : recError fl cm n true j = .fin (fl (e * c / 15)) := by
    rw [herror, heps, codeBound_eq h heps hc]
  refine ⟨herror, ?_, ?_, fun slack lo hi hst => ?_⟩
  · rw [hbound, heps]
    exact (Dbl.fin_le_fin _ _).mpr hle
  · obtain ⟨b, hb, hle'⟩ := F32.castUp_of_le h0
      (hle.trans ((le_abs_self e).trans (F32.abs_le_of_val heps))) (Or.inr rfl)
    refine ⟨b, ?_, ?_⟩
    · rw [listedError, hbound]
      exact hb
    · rw [hbound]
      exact (Dbl.fin_le_fin _ _).mpr hle'
  · have hunit : recError fl cm n false j = .fin e := by
      rw [← heps, ← heps']
      rfl
    unfold classifyBlock at hst ⊢
    rw [hunit] at hst
    rw [hbound]
    exact stateOf_decided h.mono hle hst

/-- **The codes of a unit are safe, tight and on the right block**, for a unit with the errors `err`:
`block_error_codes` returns; the bound of every code covers its block's error; and after ranking by any
permutation and packing, the planner reads the code at the block's position, with a bound of at most the
unit's. -/
def CodesSafe (fl : ℚ → ℚ) (eps : F32) (err : List Dbl) : Prop :=
  ∃ q : List UInt8, errorCodes fl err eps = .ok q ∧
    (∀ shape chunk dec, (unitBlocks shape).map (blockErr chunk dec fl) = err →
      blockErrorCodes shape chunk dec fl eps = .ok q) ∧
    q.length = err.length ∧
    ∀ (i : ℕ) (r : Dbl) (x : UInt8), err[i]? = some r → q[i]? = some x →
      x.toNat ≤ 15 ∧ r ≤ codeBound fl eps.val (.fin x.toNat) ∧
      ∀ rk : List ℕ, rk.Perm (List.range err.length) → ∀ j, rk[i]? = some j →
        codeAt (packCodes (rankedBytes rk q)) j = x.toNat ∧
        ∀ head offs : List UInt8, head.length = 8 → offs.length = 2 * err.length →
          ReadsCode fl (head ++ eps.bytes ++ offs ++ packCodes (rankedBytes rk q)) err.length j eps x.toNat

/-- Errors that are doubles, of at most the bound. -/
def ErrorsWithin (eps : F32) (err : List Dbl) : Prop :=
  ∀ r ∈ err, .fin 0 ≤ r ∧ r ≤ eps.val ∧ ∀ q, r = .fin q → HasBits 53 q

/-- **A finite bound** makes safe codes. -/
theorem error_codes_safe {fl : ℚ → ℚ} (h : IsRounding 53 fl) {eps : F32} {e : ℚ} (heps : eps.val = .fin e)
    (he : 0 < e) {err : List Dbl} (herr : ErrorsWithin eps err) : CodesSafe fl eps err := by
  obtain ⟨err, rfl, hnum⟩ : ∃ l : List ℚ, l.map .fin = err ∧ ∀ r ∈ l, HasBits 53 r ∧ 0 ≤ r ∧ r ≤ e := by
    refine ⟨err.map Dbl.toRat, ?_, fun r hr => ?_⟩
    · rw [List.map_map]
      refine (List.map_congr_left fun r hr => ?_).trans (List.map_id err)
      obtain ⟨h0, hle, -⟩ := herr r hr
      obtain ⟨q, rfl⟩ := Dbl.exists_fin_of_between h0 (heps ▸ hle)
      rfl
    · obtain ⟨x, hx, rfl⟩ := List.mem_map.mp hr
      obtain ⟨h0, hle, hbits⟩ := herr x hx
      rw [heps] at hle
      obtain ⟨q, rfl⟩ := Dbl.exists_fin_of_between h0 hle
      exact ⟨hbits q rfl, (Dbl.fin_le_fin _ _).mp h0, (Dbl.fin_le_fin _ _).mp hle⟩
  obtain ⟨q, hok, hlen, hcode⟩ := errorCodes_ok h heps he hnum
  have hsmall : ∀ c ≤ 15, (UInt8.ofNat c).toNat = c := fun c hc => by
    rw [UInt8.toNat_ofNat', Nat.mod_eq_of_lt (by omega)]
  have hq : ∀ x ∈ q, x.toNat < 16 := fun x hx => by
    obtain ⟨i, hi, rfl⟩ := List.getElem_of_mem hx
    obtain ⟨c, hc, heq, -⟩ := hcode i _ (List.getElem?_eq_getElem (hlen ▸ hi))
    rw [List.getElem?_eq_getElem hi] at heq
    rw [Option.some.inj heq, hsmall c hc]
    omega
  refine ⟨q, hok, fun shape chunk dec hunit => ?_, by rw [hlen, List.length_map], fun i r x hi hx => ?_⟩
  · rw [blockErrorCodes_eq, hunit, hok]
  · rw [List.getElem?_map, Option.map_eq_some_iff] at hi
    obtain ⟨r, hi, rfl⟩ := hi
    obtain ⟨c, hc, heq, hle⟩ := hcode i r hi
    obtain rfl := Option.some.inj (hx.symm.trans heq)
    rw [hsmall c hc, List.length_map]
    refine ⟨hc, ?_, fun rk hrk j hj => ?_⟩
    · rw [heps, codeBound_eq h heps hc]
      exact (Dbl.fin_le_fin _ _).mpr hle
    · have hat := codeAt_ranked hq (hlen ▸ hrk) hj hx
      rw [hsmall c hc] at hat
      exact ⟨hat, fun head offs hhead hoffs => readsCode_of_codeAt h heps he hhead hoffs hc hat⟩

/-! ### An infinite bound -/

/-- The code of an infinite bound is 0, or not a number: neither has a bound. -/
theorem codeOf_pinf (fl : ℚ → ℚ) {r : Dbl} (hr : .fin 0 ≤ r) :
    codeOf fl .pinf r = .fin 0 ∨ codeOf fl .pinf r = .nan := by
  cases r with
  | nan => exact absurd hr (Dbl.not_le_nan _)
  | ninf => exact absurd hr (Dbl.not_fin_le_ninf 0)
  | pinf => exact Or.inr rfl
  | fin r =>
    have hq : npMin (npCeil (Dbl.div fl (Dbl.mul fl (.fin 15) (.fin r)) .pinf)) (.fin 15) = .fin 0 :=
      (by decide +kernel : npMin (npCeil (.fin 0)) (.fin 15) = .fin 0)
    left
    unfold codeOf
    dsimp only
    rw [hq]
    rfl

/-- **No check notices an infinite bound**: all codes are 0. -/
theorem errorCodes_pinf (fl : ℚ → ℚ) {eps : F32} (heps : eps.val = .pinf) {err : List Dbl}
    (herr : ∀ r ∈ err, .fin 0 ≤ r) : errorCodes fl err eps = .ok (err.map fun _ => 0) := by
  have hbound : ∀ r ∈ err, codeBound fl .pinf (codeOf fl .pinf r) = .nan ∧ ¬ .fin 15 < codeOf fl .pinf r ∧
      asU8 (codeOf fl .pinf r) = 0 := fun r hr => by
    rcases codeOf_pinf fl (herr r hr) with hc | hc <;> rw [hc]
    · exact ⟨rfl, by decide +kernel, rfl⟩
    · exact ⟨rfl, Dbl.not_lt_nan _, rfl⟩
  unfold errorCodes
  dsimp only
  rw [heps, if_neg (by simp), if_neg, List.map_map]
  · exact congrArg Except.ok (List.map_congr_left fun r hr => (hbound r hr).2.2)
  · rintro (⟨x, hx, hlt⟩ | ⟨p, hp, hlt⟩)
    · obtain ⟨r, hr, rfl⟩ := List.mem_map.mp hx
      exact (hbound r hr).2.1 hlt
    · have hzip : (err.map (codeOf fl .pinf)).zip (err.map id) = err.map fun r => (codeOf fl .pinf r, r) :=
        List.zip_map'
      rw [List.map_id] at hzip
      rw [hzip, List.mem_map] at hp
      obtain ⟨r, hr, rfl⟩ := hp
      rw [(hbound r hr).1] at hlt
      exact Dbl.not_nan_lt _ hlt

theorem not_codesSafe_of_pinf {fl : ℚ → ℚ} {eps : F32} (heps : eps.val = .pinf) {err : List Dbl}
    (herr : ∀ r ∈ err, .fin 0 ≤ r) (hne : err ≠ []) : ¬ CodesSafe fl eps err := by
  rintro ⟨q, hok, -, -, hcode⟩
  rw [errorCodes_pinf fl heps herr] at hok
  obtain rfl := Except.ok.inj hok
  obtain ⟨r, l, rfl⟩ := List.exists_cons_of_ne_nil hne
  have hle := (hcode 0 r 0 rfl rfl).2.1
  rw [heps] at hle
  exact absurd hle (Dbl.not_le_nan r)

/-- **When the error codes are safe**: for errors that are doubles of at most the bound, exactly when the
bound is finite, or there is no block. -/
theorem codes_safe_iff {fl : ℚ → ℚ} (h : ToNearest 53 fl) {eps : F32} (heps : .fin 0 < eps.val)
    {err : List Dbl} (herr : ErrorsWithin eps err) :
    CodesSafe fl eps err ↔ (∃ e, eps.val = .fin e) ∨ err = [] := by
  have hcases : (∃ e, eps.val = .fin e) ∨ eps.val = .pinf := by
    cases hv : eps.val with
    | nan => exact absurd (hv ▸ heps) (Dbl.not_lt_nan _)
    | ninf => exact absurd (hv ▸ heps) (Dbl.not_lt_ninf _)
    | pinf => exact Or.inr rfl
    | fin e => exact Or.inl ⟨e, rfl⟩
  constructor
  · intro hsafe
    refine hcases.imp_right fun hinf => ?_
    by_contra hne
    exact not_codesSafe_of_pinf hinf (fun r hr => (herr r hr).1) hne hsafe
  · rintro (⟨e, he⟩ | rfl)
    · rw [he, Dbl.fin_lt_fin] at heps
      exact error_codes_safe (isRounding_of_toNearest h) he heps herr
    · have hok : errorCodes fl [] eps = .ok [] := by
        unfold errorCodes
        dsimp only
        split_ifs <;> simp_all
      exact ⟨[], hok, fun shape chunk dec hunit => by rw [blockErrorCodes_eq, hunit, hok], rfl,
        fun i r x hi => by simp at hi⟩

/-- A unit of three blocks with the bound 15. -/
theorem codes_safe_iff_three : CodesSafe (roundEven 53) ⟨0x41700000#32⟩ ([15, 7, 0].map .fin) := by
  have heps : (⟨0x41700000#32⟩ : F32).val = .fin 15 := by decide +kernel
  have hbits : ∀ c : ℕ, c ≤ 15 → HasBits 53 (c : ℚ) := fun c hc => (hasBits_code hc).mono (by norm_num)
  refine (codes_safe_iff (toNearest_roundEven (by norm_num)) (by rw [heps]; decide +kernel) ?_).mpr
    (Or.inl ⟨15, heps⟩)
  intro r hr
  rw [heps]
  simp only [List.map_cons, List.map_nil, List.mem_cons, List.not_mem_nil, or_false] at hr
  rcases hr with rfl | rfl | rfl
  · exact ⟨by decide +kernel, by decide +kernel, by rintro q ⟨⟩; exact_mod_cast hbits 15 le_rfl⟩
  · exact ⟨by decide +kernel, by decide +kernel, by rintro q ⟨⟩; exact_mod_cast hbits 7 (by norm_num)⟩
  · exact ⟨by decide +kernel, by decide +kernel, by rintro q ⟨⟩; exact_mod_cast hbits 0 (by norm_num)⟩

/-- One block with the error 1 and an infinite bound: code 0 passes, its bound is not a number, and a
block that the bound of the unit decides is no longer decided. -/
theorem not_codesSafe_inf : ErrorsWithin F32.inf [.fin 1] ∧
    errorCodes (roundEven 53) [.fin 1] F32.inf = .ok [0] ∧
    codeBound (roundEven 53) F32.inf.val (.fin 0) = .nan ∧
    (∀ bmin bmax, stateOf (roundEven 53) (.fin bmin) (.fin bmax) F32.inf.val .pinf .pinf = .OUT ∧
      stateOf (roundEven 53) (.fin bmin) (.fin bmax) .nan .pinf .pinf = .MAYBE) ∧
    ¬ CodesSafe (roundEven 53) F32.inf [.fin 1] := by
  have hinf := F32.val_inf
  have herr : ∀ r ∈ [Dbl.fin 1], .fin 0 ≤ r := by decide +kernel
  refine ⟨fun r hr => ?_, errorCodes_pinf _ hinf herr, by rw [hinf]; rfl, fun bmin bmax => ⟨?_, rfl⟩,
    not_codesSafe_of_pinf hinf herr (List.cons_ne_nil _ _)⟩
  · rw [List.mem_singleton.mp hr, hinf]
    refine ⟨by decide +kernel, Dbl.fin_le_pinf 1, ?_⟩
    rintro q ⟨⟩
    exact_mod_cast (hasBits_code (c := 1) (by norm_num)).mono (by norm_num)
  · rw [hinf]
    rfl

end SkipZFP.Plan.Codes
