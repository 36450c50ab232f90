/-
The factor of a matrix product as a constant of C.

The reference kernel multiplies the sum of a matrix product by its factor, a number of single
precision, widened to double precision.  The last line of the kernel's source multiplies it by the
shortest decimal that identifies the factor in single precision.  C rounds that decimal to double
precision, so the two agree just if the decimal is as near to the factor as double precision tells
apart.  A factor that is no number has a token that is no constant.
-/
import TensorGraph.Proofs.Binary.Widened
import TensorGraph.Proofs.Cuda.Constant
import TensorGraph.Proofs.Cuda.Frame

namespace TensorGraph
namespace Cuda

open Format (single double)

variable {factor : Nat} {output : Shape} {inputs : List Shape} {s : Source} {d : Decimal}

/-! ## The token -/

namespace Constant

/-- What a constant for the factor of a matrix product is worth. -/
structure Scales (c : Constant) (factor : Nat) : Prop where
  /-- In single precision it is the factor. -/
  identifies : c.ReadsAs .single factor
  /-- In double precision it is still between the middles to the neighbours of the factor. -/
  near : ∀ bits, c.ReadsAs .double bits →
    single.Between (double.number (double.magnitude bits)) (single.magnitude factor)
  /-- It is the widened factor just if no double is nearer. -/
  widened_iff : c.ReadsAs .double (Format.convert .single .double factor) ↔
    double.Between c.decimal.value (double.magnitude (Format.convert .single .double factor))
  /-- It is the widened factor if that is a decimal without digits below the distance to the next
  number of single precision, as whole numbers below `2 ^ 24` are. -/
  exact : ∀ (n : Nat) (power : ℤ),
    single.number (single.magnitude factor) = n * 10 ^ power →
      single.quantum (single.magnitude factor) ≤ 10 ^ power →
        c.ReadsAs .double (Format.convert .single .double factor)

theorem readsAs_widened_iff {c : Constant} (hlt : single.magnitude factor < single.infinity)
    (hnegative : c.negative = single.isNegative factor) :
    c.ReadsAs .double (Format.convert .single .double factor) ↔
      double.Between c.decimal.value
        (double.magnitude (Format.convert .single .double factor)) := by
  have hwide := Format.isDouble_widened hlt
  have hnearest := Format.nearest_iff c.decimal.value_nonneg hwide.finite
  have hodd : ¬double.magnitude (Format.convert .single .double factor) % 2 = 1 := by
    rw [hwide.even]
    exact Nat.zero_ne_one
  unfold ReadsAs
  rw [Format.isNegative_widened hlt, and_iff_right hnegative, hnearest,
    and_iff_left fun h => absurd h hodd]

theorem scales_of_written (hlt : single.magnitude factor < single.infinity)
    (hvalue : d.value = (Decimal.written single (single.magnitude factor)).value) :
    Scales ⟨single.isNegative factor, d⟩ factor where
  identifies := readsAs_of_written (by decide) hlt hvalue
  near bits hbits := by
    have hidentifies := readsAs_of_written (by decide) hlt hvalue
    exact Format.between_of_nearest_double hlt (hidentifies.2.between d.value_nonneg hlt) hbits.2
  widened_iff := readsAs_widened_iff hlt rfl
  exact n power hn hquantum := by
    refine (readsAs_widened_iff hlt rfl).mpr ?_
    have hwide := Format.isDouble_widened hlt
    have hd : d.value = double.number (double.magnitude
        (Format.convert .single .double factor)) := by
      rw [hvalue, Decimal.value_written (by decide) hlt hn hquantum, hwide.number]
    show double.Between d.value _
    rw [hd]
    exact Format.between_number _ _

end Constant

/-! ## The source -/

/-- The line of a matrix product that scales the sum. -/
def scalingLine (element token : String) : String :=
  "out[i] = (" ++ element ++ ")(acc * " ++ token ++ ");"

def EndsWith (s : Stmt) (line : String) : Prop := ∃ before, s.lines = before ++ [line]

theorem EndsWith.sequence {second : Stmt} {line : String} (h : EndsWith second line)
    (first : Stmt) : EndsWith (.sequence first second) line := by
  obtain ⟨before, hlines⟩ := h
  exact ⟨first.lines ++ before, by rw [Stmt.lines_sequence, hlines, List.append_assoc]⟩

theorem EndsWith.unique {s : Stmt} {line line' : String} (h : EndsWith s line)
    (h' : EndsWith s line') : line = line' := by
  obtain ⟨before, hlines⟩ := h
  obtain ⟨before', hlines'⟩ := h'
  exact (List.append_inj' (hlines.symm.trans hlines') rfl).2 |> List.singleton_inj.mp

theorem scalingLine_inj {element token token' : String}
    (h : scalingLine element token = scalingLine element token') : token = token' := by
  unfold scalingLine at h
  rw [← String.toList_inj] at h ⊢
  simpa only [String.toList_append, List.append_cancel_left_eq, List.append_cancel_right_eq] using h

theorem endsWith_gemmBody (element : String) (factor inner columns : Nat) :
    EndsWith (gemmBody (.element element) factor inner columns)
      (scalingLine element (single.text factorLayout factor)) := by
  refine ((EndsWith.sequence ?_ _).sequence _).sequence _
  refine ⟨[], congrArg (fun line => [line]) ?_⟩
  show "out[i]" ++ " = " ++ ("(" ++ element ++ ")" ++
    ("(" ++ ("acc" ++ " " ++ "*" ++ " " ++ single.text factorLayout factor) ++ ")")) ++ ";" =
    scalingLine element (single.text factorLayout factor)
  unfold scalingLine
  rw [← String.toList_inj]
  simp only [String.toList_append, List.append_assoc]
  rfl

theorem body_eq_of_source (h : source (.gemm factor) output inputs = .value s) :
    ∃ count inner columns, s.body =
      frame count (gemmBody (.element output.dtype.cName) factor inner columns) := by
  unfold source at h
  obtain ⟨count, -, h⟩ := Outcome.bind_eq_value.mp h
  obtain ⟨statements, hbody, h⟩ := Outcome.bind_eq_value.mp h
  unfold body at hbody
  dsimp only at hbody
  obtain ⟨a, -, hbody⟩ := Outcome.bind_eq_value.mp hbody
  obtain ⟨inner, -, hbody⟩ := Outcome.bind_eq_value.mp hbody
  obtain ⟨columns, -, hbody⟩ := Outcome.bind_eq_value.mp hbody
  cases hbody
  cases h
  exact ⟨count, inner, columns, rfl⟩

/-- The last line of a matrix product's source multiplies by the text of its factor. -/
theorem endsWith_of_source (h : source (.gemm factor) output inputs = .value s) :
    EndsWith s.body (scalingLine output.dtype.cName (single.text factorLayout factor)) := by
  obtain ⟨count, inner, columns, hbody⟩ := body_eq_of_source h
  rw [hbody]
  exact ((endsWith_gemmBody ..).sequence _).sequence _

theorem token_eq {token : String} (h : source (.gemm factor) output inputs = .value s)
    (hends : EndsWith s.body (scalingLine output.dtype.cName token)) :
    token = single.text factorLayout factor :=
  scalingLine_inj (hends.unique (endsWith_of_source h))

/-- The token behind the sum of a matrix product is a constant just if the factor is a number, and
the reference kernel's factor is that number in double precision.  The constant is rounded to the
factor in single precision.  C rounds it to double precision: that gives the widened factor just if
the decimal is no farther from it than half the distance to the doubles beside it. -/
theorem source_gemm_factor (h : source (.gemm factor) output inputs = .value s) :
    ∃ token, EndsWith s.body (scalingLine output.dtype.cName token) ∧
      (single.infinity ≤ single.magnitude factor → Constant.read? token.toList = none) ∧
      (single.magnitude factor < single.infinity →
        double.number (double.magnitude (Format.convert .single .double factor)) =
          single.number (single.magnitude factor) ∧
        ∃ c, Constant.read? token.toList = some c ∧ c.Scales factor) := by
  refine ⟨_, endsWith_of_source h, Constant.read?_text_of_le, fun hlt => ?_⟩
  obtain ⟨d, hread, hvalue⟩ :=
    Constant.read?_text_of_lt (show factorLayout.wholePoint = true from rfl) hlt
  exact ⟨(Format.isDouble_widened hlt).number, _, hread, Constant.scales_of_written hlt hvalue⟩

def fourByFive : Shape := ⟨.float, [⟨4, 5⟩, ⟨5, 1⟩]⟩

def fiveByThree : Shape := ⟨.float, [⟨5, 3⟩, ⟨3, 1⟩]⟩

def fourByThree : Shape := ⟨.float, [⟨4, 3⟩, ⟨3, 1⟩]⟩

/-- A half is scaled by exactly. -/
theorem source_gemm_factor_half :
    ∃ s, source (.gemm 0x3f000000) fourByThree [fourByFive, fiveByThree] = .value s ∧
      EndsWith s.body "out[i] = (float)(acc * 0.5);" ∧
      ∃ c, Constant.read? "0.5".toList = some c ∧ c.Scales 0x3f000000 ∧
        c.ReadsAs .double 0x3fe0000000000000 := by
  have hsource : source (.gemm 0x3f000000) fourByThree [fourByFive, fiveByThree] = .value _ := rfl
  obtain ⟨token, hends, -, hfinite⟩ := source_gemm_factor hsource
  obtain ⟨-, c, hread, hscales⟩ := hfinite (by decide)
  have htoken : token = "0.5" := (token_eq hsource hends).trans (by decide +kernel)
  subst htoken
  refine ⟨_, hsource, hends, c, hread, hscales, ?_⟩
  have hwide : Format.convert .single .double 0x3f000000 = 0x3fe0000000000000 := by decide +kernel
  have hmagnitude : single.magnitude 0x3f000000 = 0x3f000000 := by decide +kernel
  have hcoefficient : single.coefficient 0x3f000000 = 8388608 := by decide +kernel
  have hexponent : single.exponentOf 0x3f000000 = -24 := by decide +kernel
  rw [← hwide]
  refine hscales.exact 5 (-1) ?_ ?_
  · rw [hmagnitude, Format.number, Format.quantum, hcoefficient, hexponent]
    norm_num
  · rw [hmagnitude, Format.quantum, hexponent]
    norm_num

/-- C reads `0.1` as another double than a tenth of single precision is widened to. -/
theorem source_gemm_not_widened :
    ¬∀ (factor : Nat) (output : Shape) (inputs : List Shape) (s : Source), factor < 2 ^ 32 →
      source (.gemm factor) output inputs = .value s →
      ∃ token c, EndsWith s.body (scalingLine output.dtype.cName token) ∧
        Constant.read? token.toList = some c ∧
        c.ReadsAs .double (Format.convert .single .double factor) := by
  intro h
  have hsource : source (.gemm 0x3dcccccd) fourByThree [fourByFive, fiveByThree] = .value _ := rfl
  obtain ⟨token, c, hends, hread, hreads⟩ := h 0x3dcccccd _ _ _ (by norm_num) hsource
  have htoken : token = "0.1" := (token_eq hsource hends).trans (by decide +kernel)
  subst htoken
  have hc : Constant.read? "0.1".toList = some ⟨false, 1, -1⟩ := by decide +kernel
  cases hread.symm.trans hc
  have hwide : Format.convert .single .double 0x3dcccccd = 0x3fb99999a0000000 := by decide +kernel
  rw [hwide] at hreads
  have hlow := (hreads.2.between (Decimal.value_nonneg _) (by decide)).low
  rw [show double.magnitude 0x3fb99999a0000000 = 0x3fb99999a0000000 by decide +kernel,
    Format.number, Format.quantum, Format.quantum,
    show double.coefficient 0x3fb99999a0000000 = 7205759511166976 by decide +kernel,
    show double.exponentOf 0x3fb99999a0000000 = -56 by decide +kernel,
    show double.exponentOf (0x3fb99999a0000000 - 1) = -56 by decide +kernel, Decimal.value] at hlow
  norm_num at hlow

end Cuda
end TensorGraph
