/-
The kernel of the convolution, run by one thread.

A thread takes its number apart into the coordinates of its element (`define_coordinates`),
and then each of the three loops leaves another sum and makes the loads of its taps.  A tap
outside the image ends its iteration early, which `exec_atCoordinate` says once for rows and
columns of taps.  All numbers are signed words: the coordinates under taps may be negative.
-/
import TensorGraph.Proofs.Cuda.Dense
import TensorGraph.Proofs.Meaning

namespace TensorGraph
namespace Cuda

open Stmt

variable {ρ : Type} {m : Machine ρ}

/-! ## Signed words -/

def signedVar (v : String) (n : Int) : String × Variable ρ :=
  (v, ⟨.signedWord, .int .longLong n⟩)

theorem yields_signedVar {env : Scope ρ} {v : String} {n : Nat}
    (h : env.value? m v = some (.int .longLong n)) (hn : n ≤ Word.maxSigned) :
    (Expr.name v).Yields m env .longLong n := Expr.yields_name h (IntType.holds_natCast hn)

theorem yields_natural {env : Scope ρ} {n : Nat} (h : n ≤ Word.maxSigned) :
    (natural n).Yields m env (IntType.literal n) n := Expr.yields_int h

section

variable {a b : Expr} {env : Scope ρ} {x y : Nat}

theorem yields_add_signed (ha : a.Yields m env .longLong x) (hb : b.Yields m env .longLong y)
    (h : x + y ≤ Word.maxSigned) : (a + b).Yields m env .longLong (x + y : Nat) := ha.add hb rfl h

theorem yields_mul_natural (ha : a.Yields m env .longLong x) (hy : y ≤ Word.maxSigned)
    (h : x * y ≤ Word.maxSigned) : (a * natural y).Yields m env .longLong (x * y : Nat) :=
  ha.mul (yields_natural hy) (IntType.common_longLong_literal y) h

end

/-! ## Positions -/

/-- The row-major number of an index of a tensor of rank four, but for the first extent. -/
def flat (c h w i j k l : Nat) : Nat := ((i * c + j) * h + k) * w + l

theorem flat_lt {n c h w i j k l : Nat} (hi : i < n) (hj : j < c) (hk : k < h) (hl : l < w) :
    flat c h w i j k l < n * c * h * w :=
  mul_add_lt (mul_add_lt (mul_add_lt hi hj) hk) hl

/-- The coordinates of an index, from its number. -/
theorem flat_coordinates {c h w j k l : Nat} (i : Nat) (hj : j < c) (hk : k < h) (hl : l < w) :
    flat c h w i j k l % w = l ∧ flat c h w i j k l / w % h = k ∧
      flat c h w i j k l / (h * w) % c = j ∧ flat c h w i j k l / (c * h * w) = i := by
  have hw : flat c h w i j k l / w = (i * c + j) * h + k := mul_add_div _ hl
  have hh : flat c h w i j k l / (h * w) = i * c + j := by
    rw [Nat.mul_comm h w, ← Nat.div_div_eq_div_mul, hw, mul_add_div _ hk]
  refine ⟨mul_add_mod _ hl, ?_, ?_, ?_⟩
  · rw [hw, mul_add_mod _ hk]
  · rw [hh, mul_add_mod _ hj]
  · rw [Nat.mul_assoc, Nat.mul_comm c, ← Nat.div_div_eq_div_mul, hh, mul_add_div _ hj]

/-- An extent other than zero is no larger than the product. -/
theorem extents_le {n c h w : Nat} (hn : 0 < n) (hc : 0 < c) (hh : 0 < h) (hw : 0 < w) :
    n ≤ n * c * h * w ∧ c ≤ n * c * h * w ∧ h ≤ n * c * h * w ∧ w ≤ n * c * h * w := by
  have h1 : n ≤ n * c := Nat.le_mul_of_pos_right _ hc
  have h2 : c ≤ n * c := Nat.le_mul_of_pos_left _ hn
  have h3 : n * c ≤ n * c * h := Nat.le_mul_of_pos_right _ hh
  have h4 : h ≤ n * c * h := Nat.le_mul_of_pos_left _ (by omega)
  have h5 : n * c * h ≤ n * c * h * w := Nat.le_mul_of_pos_right _ hw
  have h6 : w ≤ n * c * h * w := Nat.le_mul_of_pos_left _ (by omega)
  omega

def flatIndex (c h w : Nat) (i j k l : String) : Expr :=
  .paren (.paren (.name i * natural c + .name j) * natural h + .name k) * natural w + .name l

theorem yields_flatIndex {env : Scope ρ} {n c h w i j k l : Nat} {vi vj vk vl : String}
    (hvi : env.value? m vi = some (.int .longLong i))
    (hvj : env.value? m vj = some (.int .longLong j))
    (hvk : env.value? m vk = some (.int .longLong k))
    (hvl : env.value? m vl = some (.int .longLong l)) (hi : i < n) (hj : j < c) (hk : k < h)
    (hl : l < w) (hfit : n * c * h * w ≤ Word.maxSigned) :
    (flatIndex c h w vi vj vk vl).Yields m env .longLong (flat c h w i j k l) := by
  have h1 : i * c + j < n * c := mul_add_lt hi hj
  have h2 : (i * c + j) * h + k < n * c * h := mul_add_lt h1 hk
  have h3 : flat c h w i j k l < n * c * h * w := flat_lt hi hj hk hl
  have hw : n * c * h ≤ n * c * h * w := Nat.le_mul_of_pos_right _ (by omega)
  have hh : n * c ≤ n * c * h := Nat.le_mul_of_pos_right _ (by omega)
  obtain ⟨hn, hc, hh', hw'⟩ := extents_le (show 0 < n by omega) (show 0 < c by omega)
    (show 0 < h by omega) (show 0 < w by omega)
  have hfirst : (Expr.name vi * natural c).Yields m env .longLong (i * c : Nat) :=
    yields_mul_natural (yields_signedVar hvi (by omega)) (by omega) (by omega)
  have hplane : (Expr.name vi * natural c + .name vj).Yields m env .longLong (i * c + j : Nat) :=
    yields_add_signed hfirst (yields_signedVar hvj (by omega)) (by omega)
  have hrow : (.paren (.name vi * natural c + .name vj) * natural h + .name vk : Expr).Yields m env
      .longLong ((i * c + j) * h + k : Nat) :=
    yields_add_signed (yields_mul_natural hplane.paren (by omega) (by omega))
      (yields_signedVar hvk (by omega)) (by omega)
  unfold flat at h3
  exact yields_add_signed (yields_mul_natural hrow.paren (by omega) (by omega))
    (yields_signedVar hvl (by omega)) (by omega)

/-! ## Coordinates -/

section

open View (coordinate)

variable {env : Scope ρ} {v output tap : String}
  {position stride k dilation padding extent : Nat}

theorem coordinate_eq :
    coordinate position stride k dilation padding =
      ((position * stride + k * dilation : Nat) : Int) - padding := by
  rw [coordinate, Nat.cast_add, Nat.cast_mul, Nat.cast_mul]

theorem exec_declareCoordinate (v : String)
    (hposition : env.value? m output = some (.int .longLong position))
    (htap : env.value? m tap = some (.int .longLong k)) (hposition' : position ≤ Word.maxSigned)
    (htap' : k ≤ Word.maxSigned) (hstride : stride ≤ Word.maxSigned)
    (hdilation : dilation ≤ Word.maxSigned) (hpadding : padding ≤ Word.maxSigned)
    (hmoved : position * stride + k * dilation ≤ Word.maxSigned) :
    (declareCoordinate v output tap stride dilation padding).exec m env =
      .done (.next, signedVar v (coordinate position stride k dilation padding) :: env) [] := by
  have hwindow : (Expr.name output * natural stride).Yields m env .longLong
      (position * stride : Nat) :=
    yields_mul_natural (yields_signedVar hposition hposition') hstride (by omega)
  have htaps : (Expr.name tap * natural dilation).Yields m env .longLong (k * dilation : Nat) :=
    yields_mul_natural (yields_signedVar htap htap') hdilation (by omega)
  have hdifference := (yields_add_signed hwindow htaps hmoved).sub (yields_natural hpadding)
    (IntType.common_longLong_literal padding)
  rw [← coordinate_eq] at hdifference
  exact exec_declare true ((define_cons_int hdifference rfl hdifference.2).trans rfl)

/-- A coordinate outside an extent ends the iteration. -/
theorem exec_skipOutside {x : Int} (h : env.value? m v = some (.int .longLong x))
    (hx : IntType.longLong.Holds x) (hextent : extent ≤ Word.maxSigned) :
    (skipOutside v extent).exec m env =
      .done (if 0 ≤ x ∧ x < extent then .next else .skip, env) [] := by
  have hname : (Expr.name v).Yields m env .longLong x := Expr.yields_name h hx
  have hzero : (Expr.int 0).Yields m env .int 0 := Expr.yields_int (Nat.zero_le _)
  have hbelow := hname.less hzero hx (by decide)
  have hbeyond := hname.atLeast (yields_natural hextent)
    (by rw [IntType.common_longLong_literal]; exact hx)
    (by rw [IntType.common_longLong_literal]; exact IntType.holds_natCast hextent)
  refine (exec_skipIf (hbelow.either hbeyond)).trans ?_
  by_cases hin : 0 ≤ x ∧ x < extent
  · rw [if_pos hin, if_neg (show ¬x < 0 by omega), if_neg (show ¬x ≥ extent by omega)]
    rfl
  · rw [if_neg hin]
    by_cases hlow : x < 0
    · rw [if_pos hlow]
      rfl
    · rw [if_neg hlow, if_pos (show x ≥ extent by omega)]
      rfl

/-- What stands behind the test of a coordinate is run where the coordinate lies inside. -/
theorem exec_atCoordinate (rest : Stmt)
    (hposition : env.value? m output = some (.int .longLong position))
    (htap : env.value? m tap = some (.int .longLong k)) (hposition' : position ≤ Word.maxSigned)
    (htap' : k ≤ Word.maxSigned) (hstride : stride ≤ Word.maxSigned)
    (hdilation : dilation ≤ Word.maxSigned) (hpadding : padding ≤ Word.maxSigned)
    (hmoved : position * stride + k * dilation ≤ Word.maxSigned)
    (hextent : extent ≤ Word.maxSigned) :
    (Stmt.inOrder (declareCoordinate v output tap stride dilation padding)
      [skipOutside v extent, rest]).exec m env =
      if 0 ≤ coordinate position stride k dilation padding ∧
          coordinate position stride k dilation padding < extent then
        rest.exec m (signedVar v (coordinate position stride k dilation padding) :: env)
      else
        .done (.skip, signedVar v (coordinate position stride k dilation padding) :: env) [] := by
  have hdeclare := exec_declareCoordinate v hposition htap hposition' htap' hstride hdilation
    hpadding hmoved
  have hholds : IntType.longLong.Holds (coordinate position stride k dilation padding) := by
    rw [coordinate_eq]
    show -((Word.maxSigned : Int) + 1) ≤ _ ∧ _ ≤ (Word.maxSigned : Int)
    omega
  generalize coordinate position stride k dilation padding = x at hdeclare hholds ⊢
  have hskip : (skipOutside v extent).exec m (signedVar v x :: env) =
      .done (if 0 ≤ x ∧ x < extent then .next else .skip, signedVar v x :: env) [] :=
    exec_skipOutside (Scope.value?_cons_self v _ env) hholds hextent
  have hexec : (Stmt.inOrder (declareCoordinate v output tap stride dilation padding)
      [skipOutside v extent, rest]).exec m env =
      ((skipOutside v extent).sequence rest).exec m (signedVar v x :: env) :=
    Traced.bind_of_pure hdeclare
  rw [hexec]
  by_cases hin : 0 ≤ x ∧ x < extent
  · rw [if_pos hin] at hskip ⊢
    exact Traced.bind_of_pure hskip
  · rw [if_neg hin] at hskip ⊢
    exact exec_sequence_of_ne hskip (by decide)

end

/-! ## Loops -/

structure Extents where
  batch : Nat
  channels : Nat
  height : Nat
  width : Nat
  banks : Nat
  kernelHeight : Nat
  kernelWidth : Nat
  rows : Nat
  columns : Nat

namespace Extents

def sizes (e : Extents) : ConvolutionSizes where
  channels := e.channels
  height := e.height
  width := e.width
  kernelHeight := e.kernelHeight
  kernelWidth := e.kernelWidth
  banks := e.banks
  outHeight := e.rows
  outWidth := e.columns
  outImage := e.rows * e.columns
  outBatch := e.banks * e.rows * e.columns

/-- All sizes of a convolution are signed words. -/
structure Fits (e : Extents) (c : Convolution) : Prop where
  each : ∀ n ∈ [e.batch, e.channels, e.height, e.width, e.banks, e.kernelHeight, e.kernelWidth,
    e.rows, e.columns], n ≤ Word.maxSigned
  images : e.batch * e.channels * e.height * e.width ≤ Word.maxSigned
  kernels : e.banks * e.channels * e.kernelHeight * e.kernelWidth ≤ Word.maxSigned
  output : e.batch * e.banks * e.rows * e.columns ≤ Word.maxSigned
  stride : c.stride.height ≤ Word.maxSigned ∧ c.stride.width ≤ Word.maxSigned
  dilation : c.dilation.height ≤ Word.maxSigned ∧ c.dilation.width ≤ Word.maxSigned
  padding : c.padding.height ≤ Word.maxSigned ∧ c.padding.width ≤ Word.maxSigned
  rowMoved : ∀ row < e.rows, ∀ ky < e.kernelHeight,
    row * c.stride.height + ky * c.dilation.height ≤ Word.maxSigned
  columnMoved : ∀ column < e.columns, ∀ kx < e.kernelWidth,
    column * c.stride.width + kx * c.dilation.width ≤ Word.maxSigned

end Extents

def addTap (e : Extents) : Stmt :=
  .increase (.name "acc")
    (widened "in0" (flatIndex e.channels e.height e.width "b" "ch" "iy" "ix") *
      widened "in1" (flatIndex e.channels e.kernelHeight e.kernelWidth "o" "ch" "ky" "kx"))

def alongRow (c : Convolution) (e : Extents) : Stmt :=
  .inOrder (declareCoordinate "ix" "ox" "kx" c.stride.width c.dilation.width c.padding.width)
    [skipOutside "ix" e.width, addTap e]

def alongColumn (c : Convolution) (e : Extents) : Stmt :=
  .inOrder (declareCoordinate "iy" "oy" "ky" c.stride.height c.dilation.height c.padding.height)
    [skipOutside "iy" e.height,
     .loop .signedWord "kx" (natural e.kernelWidth) .braced (alongRow c e)]

def alongWindow (c : Convolution) (e : Extents) : Stmt :=
  .loop .signedWord "ch" (natural e.channels) .below
    (.loop .signedWord "ky" (natural e.kernelHeight) .braced (alongColumn c e))

section

variable (c : Convolution) (e : Extents) (b o oy ox : Nat)

def tapLoads (ch ky y kx : Nat) : List (Access ρ) :=
  let x := View.coordinate ox c.stride.width kx c.dilation.width c.padding.width
  if 0 ≤ x ∧ x < e.width then
    [.load "in0" (flat e.channels e.height e.width b ch y x.toNat),
     .load "in1" (flat e.channels e.kernelHeight e.kernelWidth o ch ky kx)]
  else []

def rowLoads (ch ky : Nat) : List (Access ρ) :=
  let y := View.coordinate oy c.stride.height ky c.dilation.height c.padding.height
  if 0 ≤ y ∧ y < e.height then
    (List.range e.kernelWidth).flatMap fun kx => tapLoads c e b o ox ch ky y.toNat kx
  else []

def convolutionScope (acc : ρ) : Scope ρ :=
  [realVar "acc" acc, signedVar "b" b, signedVar "o" o, signedVar "oy" oy, signedVar "ox" ox,
   wordVar "i" (flat e.banks e.rows e.columns b o oy ox)]

end

section

variable {c : Convolution} {e : Extents} {b o oy ox : Nat} {xs ws : List ρ}
  (hfits : e.Fits c) (h0 : m.array "in0" = some xs) (h1 : m.array "in1" = some ws)
  (hxs : xs.length = e.batch * e.channels * e.height * e.width)
  (hws : ws.length = e.banks * e.channels * e.kernelHeight * e.kernelWidth)
  (hb : b < e.batch) (ho : o < e.banks) (hoy : oy < e.rows) (hox : ox < e.columns)

include hfits h0 h1 hxs hws hb ho hoy hox

omit hoy hox in
theorem exec_addTap {ch ky y kx x : Nat} (hch : ch < e.channels) (hky : ky < e.kernelHeight)
    (hkx : kx < e.kernelWidth) (hy : y < e.height) (hx : x < e.width) (acc : ρ) :
    ∃ acc', (addTap e).exec m (signedVar "ix" x :: signedVar "kx" kx :: signedVar "iy" y ::
        signedVar "ky" ky :: signedVar "ch" ch :: convolutionScope e b o oy ox acc) =
      .done (.next, signedVar "ix" x :: signedVar "kx" kx :: signedVar "iy" y ::
        signedVar "ky" ky :: signedVar "ch" ch :: convolutionScope e b o oy ox acc')
        [.load "in0" (flat e.channels e.height e.width b ch y x),
         .load "in1" (flat e.channels e.kernelHeight e.kernelWidth o ch ky kx)] := by
  let inner : Scope ρ := [signedVar "ix" x, signedVar "kx" kx, signedVar "iy" y,
    signedVar "ky" ky, signedVar "ch" ch]
  let env : Scope ρ := inner ++ convolutionScope e b o oy ox acc
  have hpixel : (flatIndex e.channels e.height e.width "b" "ch" "iy" "ix").Yields m env .longLong
      (flat e.channels e.height e.width b ch y x) :=
    yields_flatIndex rfl rfl rfl rfl hb hch hy hx hfits.images
  have hweight : (flatIndex e.channels e.kernelHeight e.kernelWidth "o" "ch" "ky" "kx").Yields m
      env .longLong (flat e.channels e.kernelHeight e.kernelWidth o ch ky kx) :=
    yields_flatIndex rfl rfl rfl rfl ho hch hky hkx hfits.kernels
  have hpixel' : flat e.channels e.height e.width b ch y x < xs.length :=
    hxs ▸ flat_lt hb hch hy hx
  have hweight' : flat e.channels e.kernelHeight e.kernelWidth o ch ky kx < ws.length :=
    hws ▸ flat_lt ho hch hky hkx
  have hproduct := (reads_widened hpixel h0 hpixel').binary (reads_widened hweight h1 hweight')
    (Or.inr (Or.inr (Or.inl rfl)))
  have hset : ∀ z, Scope.set m "acc" (.real z) env =
      some (inner ++ convolutionScope e b o oy ox (m.floating.convert .double z)) := fun z =>
    set_cons_of_ne (by decide) _ _ (set_cons_of_ne (by decide) _ _
      (set_cons_of_ne (by decide) _ _ (set_cons_of_ne (by decide) _ _
        (set_cons_of_ne (by decide) _ _ (set_cons_self rfl "acc" z acc)))))
  obtain ⟨z, hz⟩ := exec_increase rfl hproduct hset
  exact ⟨_, hz⟩

omit hoy in
theorem exec_alongRow {ch ky y kx : Nat} (hch : ch < e.channels) (hky : ky < e.kernelHeight)
    (hy : y < e.height) (hkx : kx < e.kernelWidth) (acc : ρ) :
    ∃ flow acc' inner, flow ≠ .leave ∧ (alongRow c e).exec m
        (signedVar "kx" kx :: signedVar "iy" y :: signedVar "ky" ky :: signedVar "ch" ch ::
          convolutionScope e b o oy ox acc) =
      .done (flow, inner ++ signedVar "iy" y :: signedVar "ky" ky :: signedVar "ch" ch ::
          convolutionScope e b o oy ox acc') (tapLoads c e b o ox ch ky y kx) := by
  have hwidth : e.width ≤ Word.maxSigned := hfits.each _ (by simp)
  have hcolumns : e.columns ≤ Word.maxSigned := hfits.each _ (by simp)
  have htaps : e.kernelWidth ≤ Word.maxSigned := hfits.each _ (by simp)
  unfold alongRow tapLoads
  rw [exec_atCoordinate _ rfl rfl (by omega) (by omega) hfits.stride.2 hfits.dilation.2
    hfits.padding.2 (hfits.columnMoved ox hox kx hkx) hwidth]
  generalize View.coordinate ox c.stride.width kx c.dilation.width c.padding.width = x
  dsimp only
  by_cases hin : 0 ≤ x ∧ x < e.width
  · rw [if_pos hin, if_pos hin]
    obtain ⟨x, rfl⟩ := Int.eq_ofNat_of_zero_le hin.1
    obtain ⟨acc', h⟩ := exec_addTap hfits h0 h1 hxs hws hb ho hch hky hkx hy
      (show x < e.width by omega) acc
    exact ⟨.next, acc', [signedVar "ix" x, signedVar "kx" kx], by decide, h⟩
  · rw [if_neg hin, if_neg hin]
    exact ⟨.skip, acc, [signedVar "ix" x, signedVar "kx" kx], by decide, rfl⟩

/-- A row of taps leaves another sum, unless it lies outside the image. -/
theorem exec_alongColumn {ch ky : Nat} (hch : ch < e.channels) (hky : ky < e.kernelHeight)
    (acc : ρ) :
    ∃ flow acc' inner, flow ≠ .leave ∧ (alongColumn c e).exec m
        (signedVar "ky" ky :: signedVar "ch" ch :: convolutionScope e b o oy ox acc) =
      .done (flow, inner ++ signedVar "ch" ch :: convolutionScope e b o oy ox acc')
        (rowLoads c e b o oy ox ch ky) := by
  have hheight : e.height ≤ Word.maxSigned := hfits.each _ (by simp)
  have hrows : e.rows ≤ Word.maxSigned := hfits.each _ (by simp)
  have htaps : e.kernelHeight ≤ Word.maxSigned := hfits.each _ (by simp)
  have hbound : e.kernelWidth ≤ IntType.longLong.greatest := hfits.each _ (by simp)
  unfold alongColumn rowLoads
  rw [exec_atCoordinate _ rfl rfl (by omega) (by omega) hfits.stride.1 hfits.dilation.1
    hfits.padding.1 (hfits.rowMoved oy hoy ky hky) hheight]
  generalize View.coordinate oy c.stride.height ky c.dilation.height c.padding.height = y
  dsimp only
  by_cases hin : 0 ≤ y ∧ y < e.height
  · rw [if_pos hin, if_pos hin]
    obtain ⟨y, rfl⟩ := Int.eq_ofNat_of_zero_le hin.1
    have hy : y < e.height := by omega
    obtain ⟨acc', h⟩ := exec_loop (fun _ _ => rfl)
      (fun kx hkx acc => exec_alongRow hfits h0 h1 hxs hws hb ho hox hch hky hy hkx acc)
      .braced rfl (fun _ => yields_natural hbound) hbound acc
    exact ⟨.next, acc', [signedVar "iy" y, signedVar "ky" ky], by decide, h⟩
  · rw [if_neg hin, if_neg hin]
    exact ⟨.skip, acc, [signedVar "iy" y, signedVar "ky" ky], by decide, rfl⟩

theorem exec_alongWindow (acc : ρ) :
    ∃ acc', (alongWindow c e).exec m (convolutionScope e b o oy ox acc) =
      .done (.next, convolutionScope e b o oy ox acc') ((List.range e.channels).flatMap fun ch =>
        (List.range e.kernelHeight).flatMap fun ky => rowLoads c e b o oy ox ch ky) := by
  have hchannels : e.channels ≤ IntType.longLong.greatest := hfits.each _ (by simp)
  have htaps : e.kernelHeight ≤ IntType.longLong.greatest := hfits.each _ (by simp)
  refine exec_loop (fun _ _ => rfl) (fun ch hch acc => ?_) .below rfl
    (fun _ => yields_natural hchannels) hchannels acc
  obtain ⟨acc', h⟩ := exec_loop (fun _ _ => rfl)
    (fun ky hky acc => exec_alongColumn hfits h0 h1 hxs hws hb ho hoy hox hch hky acc)
    .braced rfl (fun _ => yields_natural htaps) htaps acc
  exact ⟨.next, acc', [signedVar "ch" ch], by decide, h⟩

end

/-! ## The kernel -/

section

variable {c : Convolution} {e : Extents} {b o oy ox : Nat}
  (hb : b < e.batch) (ho : o < e.banks) (hoy : oy < e.rows) (hox : ox < e.columns)

include hb ho hoy hox

theorem define_coordinates (hfit : e.batch * e.banks * e.rows * e.columns ≤ Word.maxSigned) :
    define m .signedWord [wordVar "i" (flat e.banks e.rows e.columns b o oy ox)]
      [("ox", thread % natural e.columns),
       ("oy", .paren (thread / natural e.columns) % natural e.rows),
       ("o", .paren (thread / natural (e.rows * e.columns)) % natural e.banks),
       ("b", thread / natural (e.banks * e.rows * e.columns))] =
      .done [signedVar "b" b, signedVar "o" o, signedVar "oy" oy, signedVar "ox" ox,
        wordVar "i" (flat e.banks e.rows e.columns b o oy ox)] [] := by
  have hlt := flat_lt hb ho hoy hox
  obtain ⟨hw, hh, hc, hn⟩ := flat_coordinates b ho hoy hox
  obtain ⟨hbatch, hbanks, hrows, hcolumns⟩ := extents_le (show 0 < e.batch by omega)
    (show 0 < e.banks by omega) (show 0 < e.rows by omega) (show 0 < e.columns by omega)
  have hblock : e.banks * e.rows * e.columns ≤ e.batch * e.banks * e.rows * e.columns := by
    rw [Nat.mul_assoc e.batch, Nat.mul_assoc e.batch]
    exact Nat.le_mul_of_pos_left _ (by omega)
  have himage : e.rows * e.columns ≤ e.banks * e.rows * e.columns := by
    rw [Nat.mul_assoc e.banks]
    exact Nat.le_mul_of_pos_left _ (by omega)
  have hpos : 0 < e.rows * e.columns := Nat.mul_pos (by omega) (by omega)
  generalize flat e.banks e.rows e.columns b o oy ox = i at hlt hw hh hc hn ⊢
  have hmax : Word.maxSigned ≤ Word.maxUnsigned := by decide
  have hthread : ∀ env : Scope ρ, env.value? m "i" = some (.int .unsignedLongLong i) →
      thread.Yields m env .unsignedLongLong i := fun env h => yields_wordVar h (by omega)
  have hdiv : ∀ (env : Scope ρ) (n : Nat), env.value? m "i" = some (.int .unsignedLongLong i) →
      0 < n → n ≤ Word.maxSigned →
      (.paren (thread / natural n) : Expr).Yields m env .unsignedLongLong (i / n : Nat) :=
    fun env n h hn hle => ((hthread env h).div (yields_natural hle)
      (IntType.common_unsignedLongLong_literal n) hn).paren
  have hox' := (hthread [wordVar "i" i] rfl).mod (yields_natural (hcolumns.trans hfit))
    (IntType.common_unsignedLongLong_literal e.columns) (by omega)
  have hoy' := (hdiv [signedVar "ox" ox, wordVar "i" i] e.columns rfl (by omega) (by omega)).mod
    (yields_natural (hrows.trans hfit)) (IntType.common_unsignedLongLong_literal e.rows) (by omega)
  have ho' := (hdiv [signedVar "oy" oy, signedVar "ox" ox, wordVar "i" i] (e.rows * e.columns) rfl
    hpos (by omega)).mod (yields_natural (hbanks.trans hfit))
      (IntType.common_unsignedLongLong_literal e.banks) (by omega)
  have hb' := hdiv [signedVar "o" o, signedVar "oy" oy, signedVar "ox" ox, wordVar "i" i]
    (e.banks * e.rows * e.columns) rfl (by omega) (by omega)
  rw [hw] at hox'
  rw [hh] at hoy'
  rw [hc] at ho'
  rw [hn] at hb'
  have hholds : ∀ n : Nat, n ≤ Word.maxSigned → IntType.longLong.Holds n :=
    fun n h => IntType.holds_natCast h
  exact (define_cons_int hox' rfl (hholds ox (by omega))).trans
    ((define_cons_int hoy' rfl (hholds oy (by omega))).trans
      ((define_cons_int ho' rfl (hholds o (by omega))).trans
        ((define_cons_int hb' rfl (hholds b (by omega))).trans rfl)))

theorem exec_convolutionBody {xs ws : List ρ} (element : String) (hfits : e.Fits c)
    (h0 : m.array "in0" = some xs) (h1 : m.array "in1" = some ws)
    (hxs : xs.length = e.batch * e.channels * e.height * e.width)
    (hws : ws.length = e.banks * e.channels * e.kernelHeight * e.kernelWidth)
    (hcount : m.count = e.batch * e.banks * e.rows * e.columns)
    (helement : m.element.integer = none) :
    ∃ env x, (convolutionBody (.element element) c e.sizes).exec m
        [wordVar "i" (flat e.banks e.rows e.columns b o oy ox)] =
      .done (.next, env) (((List.range e.channels).flatMap fun ch =>
        (List.range e.kernelHeight).flatMap fun ky => rowLoads c e b o oy ox ch ky) ++
        [.store (flat e.banks e.rows e.columns b o oy ox) x]) := by
  have hlt : flat e.banks e.rows e.columns b o oy ox < m.count := hcount ▸ flat_lt hb ho hoy hox
  have hmax : Word.maxSigned ≤ Word.maxUnsigned := by decide
  have hfit := hfits.output
  obtain ⟨acc, hacc⟩ := exec_declare_real (m := m)
    [signedVar "b" b, signedVar "o" o, signedVar "oy" oy, signedVar "ox" ox,
      wordVar "i" (flat e.banks e.rows e.columns b o oy ox)] "acc" "0.0"
  obtain ⟨acc', hwindow⟩ := exec_alongWindow hfits h0 h1 hxs hws hb ho hoy hox acc
  have hthread : thread.Yields m (convolutionScope e b o oy ox acc') .unsignedLongLong
      (flat e.banks e.rows e.columns b o oy ox) := yields_wordVar rfl (by omega)
  have hvalue : (Expr.cast (.element element) (.name "acc")).Reads m
      (convolutionScope e b o oy ox acc') [] := (Expr.reads_name rfl).cast rfl
  obtain ⟨x, hstore⟩ := exec_store hvalue hthread hlt helement
  have hexec := exec_sequence
    (exec_declare true (define_coordinates (m := m) hb ho hoy hox hfits.output))
    (exec_sequence hacc (exec_sequence hwindow hstore))
  exact ⟨_, x, hexec⟩

end

end Cuda
end TensorGraph
