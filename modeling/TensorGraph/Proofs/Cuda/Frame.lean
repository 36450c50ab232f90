/-
What all kernels have in common.

A kernel works out the number of its thread, leaves if there is no such element, and goes on
to the statements of its operator: `source_eq_value`, `accesses_of_lt` and `accesses_of_le`.
Threads have different numbers, and a launch that is large enough has one of every number.
-/
import TensorGraph.Proofs.Cuda.Dense

namespace TensorGraph
namespace Cuda

open Stmt

variable {ρ : Type} {m : Machine ρ} {g : Grid}

/-! ## Numbers of threads -/

namespace Grid

theorem Thread.number_le (t : g.Thread) : t.number ≤ Word.maxUnsigned := by
  have hblock : (t.1 : Nat) ≤ 4294967295 := t.1.isLt.le.trans g.blocks_le
  have hwidth : g.width ≤ 4294967295 := g.width_le
  have hlane : (t.2 : Nat) < g.width := t.2.isLt
  have hproduct : (t.1 : Nat) * g.width ≤ 4294967295 * 4294967295 := Nat.mul_le_mul hblock hwidth
  have hmax : Word.maxUnsigned = 18446744073709551615 := rfl
  unfold Thread.number
  omega

theorem Thread.number_injective {t u : g.Thread} (h : t.number = u.number) : t = u := by
  have ht : (t.2 : Nat) < g.width := t.2.isLt
  have hu : (u.2 : Nat) < g.width := u.2.isLt
  unfold Thread.number at h
  have hblock := congrArg (· / g.width) h
  have hlane := congrArg (· % g.width) h
  simp only [mul_add_div _ ht, mul_add_div _ hu] at hblock
  simp only [mul_add_mod _ ht, mul_add_mod _ hu] at hlane
  exact Prod.ext (Fin.ext hblock) (Fin.ext hlane)

theorem exists_thread {p : Nat} (hp : p < g.blocks * g.width) : ∃ t : g.Thread, t.number = p := by
  have hwidth : 0 < g.width := by
    by_contra h
    rw [Nat.eq_zero_of_not_pos h] at hp
    omega
  have hblock : p / g.width < g.blocks := (Nat.div_lt_iff_lt_mul hwidth).mpr hp
  refine ⟨(⟨p / g.width, hblock⟩, ⟨p % g.width, Nat.mod_lt _ hwidth⟩), ?_⟩
  show p / g.width * g.width + p % g.width = p
  rw [Nat.mul_comm]
  exact Nat.div_add_mod p g.width

end Grid

/-! ## The frame -/

def frame (count : Nat) (statements : Stmt) : Stmt :=
  .inOrder
    (.declare true .unsignedWord
      [("i", .cast .unsignedWord (.name "blockIdx.x") * .name "blockDim.x"
        + .name "threadIdx.x")])
    [.leaveIf (.binary .atLeast thread (.word count)), statements]

theorem source_eq_value {op : Operator} {output : Shape} {inputs : List Shape} {count : Nat}
    {statements : Stmt} (hcount : output.elements = some count)
    (hbody : body op output inputs = .value statements) :
    source op output inputs =
      .value ⟨output.dtype.cName, inputs.length, frame count statements⟩ := by
  unfold source
  rw [hcount, hbody]
  rfl

theorem exec_number (t : g.Thread) (hm : m.builtin = t.builtin) :
    (declare true .unsignedWord
      [("i", .cast .unsignedWord (.name "blockIdx.x") * .name "blockDim.x"
        + .name "threadIdx.x")]).exec m [] = .done (.next, [wordVar "i" t.number]) [] := by
  have hlt := t.number_le
  have hblock : (t.1 : Nat) ≤ IntType.unsigned.greatest := t.1.isLt.le.trans g.blocks_le
  have hlane : (t.2 : Nat) ≤ IntType.unsigned.greatest := t.2.isLt.le.trans g.width_le
  have hbuiltin : ∀ {v : String} {n : Nat}, t.builtin v = some n → n ≤ IntType.unsigned.greatest →
      (Expr.name v).Yields m [] .unsigned n := by
    intro v n hv hn
    refine Expr.yields_name ?_ (IntType.holds_natCast hn)
    show (m.builtin v).map (fun n : Nat => (Value.int .unsigned n : Value ρ)) = _
    rw [hm, hv]
    rfl
  have hx : (Expr.name "blockIdx.x").Yields m [] .unsigned t.1 := hbuiltin rfl hblock
  have hwidth : (Expr.name "blockDim.x").Yields m [] .unsigned g.width := hbuiltin rfl g.width_le
  have hy : (Expr.name "threadIdx.x").Yields m [] .unsigned t.2 := hbuiltin rfl hlane
  have hmax : IntType.unsigned.greatest ≤ IntType.unsignedLongLong.greatest := by decide
  have hcast : (Expr.cast .unsignedWord (.name "blockIdx.x")).Yields m [] .unsignedLongLong t.1 :=
    hx.cast rfl (hblock.trans hmax)
  have hfit : (t.1 : Nat) * g.width + t.2 ≤ Word.maxUnsigned := hlt
  have hsum := (hcast.mul hwidth rfl ((Nat.le_add_right _ _).trans hfit)).add hy rfl hfit
  exact exec_declare true ((define_cons_int hsum rfl hsum.2).trans rfl)

theorem exec_test {i count : Nat} (hi : i ≤ Word.maxUnsigned) (hcount : count ≤ Word.maxUnsigned) :
    (leaveIf (.binary .atLeast thread (.word count))).exec m [wordVar "i" i] =
      .done (if i ≥ count then .leave else .next, [wordVar "i" i]) [] := by
  have hthread : thread.Yields m [wordVar "i" i] .unsignedLongLong i := yields_wordVar rfl hi
  have htest := hthread.atLeast (Expr.yields_word hcount) (IntType.holds_natCast hi)
    (IntType.holds_natCast hcount)
  refine (exec_leaveIf htest).trans ?_
  by_cases h : i ≥ count
  · rw [if_pos h, if_pos (show (i : Int) ≥ count by omega)]
    rfl
  · rw [if_neg h, if_neg (show ¬(i : Int) ≥ count by omega)]
    rfl

section

variable {element : String} {inputs count : Nat} {statements : Stmt} {f : Floating ρ}
  {operands : List (List ρ)} {t : g.Thread} (hcount : count ≤ Word.maxUnsigned)

include hcount

/-- A thread without an element does nothing. -/
theorem accesses_of_le (h : count ≤ t.number) :
    (Source.mk element inputs (frame count statements)).accesses f operands count t = some [] := by
  let s : Source := ⟨element, inputs, frame count statements⟩
  have htest := exec_test (m := s.machine f operands count t) t.number_le hcount
  rw [if_pos h] at htest
  have hrest : (sequence (leaveIf (.binary .atLeast thread (.word count))) statements).exec
      (s.machine f operands count t) [wordVar "i" t.number] =
      .done (.leave, [wordVar "i" t.number]) [] := exec_sequence_of_ne htest (by decide)
  have hexec := exec_sequence (exec_number (m := s.machine f operands count t) t rfl) hrest
  show ((frame count statements).exec (s.machine f operands count t) []).map Prod.snd = _
  exact congrArg (Option.map Prod.snd) hexec

/-- A thread with an element does what the statements of the operator do. -/
theorem accesses_of_lt (h : t.number < count) {r : Flow × Scope ρ} {l : List (Access ρ)}
    (hstatements : statements.exec
      ((Source.mk element inputs (frame count statements)).machine f operands count t)
      [wordVar "i" t.number] = .done r l) :
    (Source.mk element inputs (frame count statements)).accesses f operands count t = some l := by
  let s : Source := ⟨element, inputs, frame count statements⟩
  have htest := exec_test (m := s.machine f operands count t) t.number_le hcount
  rw [if_neg (by omega)] at htest
  have hexec := exec_sequence (exec_number (m := s.machine f operands count t) t rfl)
    (exec_sequence htest hstatements)
  show ((frame count statements).exec (s.machine f operands count t) []).map Prod.snd = _
  exact congrArg (Option.map Prod.snd) hexec

end

end Cuda
end TensorGraph
