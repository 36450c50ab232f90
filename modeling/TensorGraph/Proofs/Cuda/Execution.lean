/-
How kernels run.

One lemma for each form of expression and statement that kernels are made of.  `Yields` is
for the integers: an expression is worked out without a look at memory and its type holds
the result.  `Reads` is for floating values, of which only the loads matter, and `exec_loop`
puts the loads of the iterations of a loop one after the other, whatever they accumulate.
-/
import TensorGraph.Proofs.Cuda.Machine

namespace TensorGraph
namespace Cuda

/-! ## Integer types -/

namespace IntType

variable {t u : IntType} {n : Int}

theorem bring_of_holds (h : t.Holds n) : t.bring n = some n := if_pos h

theorem least_nonpos (t : IntType) : t.least ≤ 0 := by
  unfold least
  split <;> omega

theorem holds_natCast {n : Nat} (h : n ≤ t.greatest) : t.Holds n := by
  have hleast := t.least_nonpos
  exact ⟨by omega, by omega⟩

theorem greatest_le_common (t u : IntType) :
    t.greatest ≤ (t.common u).greatest ∧ u.greatest ≤ (t.common u).greatest := by
  cases t <;> cases u <;> decide

/-- A number that is not negative stays the same in a common type. -/
theorem Holds.common_left {n : Nat} (h : t.Holds n) (u : IntType) : (t.common u).Holds n := by
  have hle := (greatest_le_common t u).1
  have hn : (n : Int) ≤ t.greatest := h.2
  exact holds_natCast (by omega)

theorem Holds.common_right {n : Nat} (h : u.Holds n) (t : IntType) : (t.common u).Holds n := by
  have hle := (greatest_le_common t u).2
  have hn : (n : Int) ≤ u.greatest := h.2
  exact holds_natCast (by omega)

def literal (n : Nat) : IntType := if n ≤ int.greatest then int else longLong

theorem ofLiteral_eq_some {n : Nat} (h : n ≤ Word.maxSigned) : ofLiteral n = some (literal n) := by
  unfold ofLiteral literal
  by_cases hn : n ≤ int.greatest
  · rw [if_pos hn, if_pos hn]
  · rw [if_neg hn, if_neg hn]
    exact if_pos h

theorem holds_literal {n : Nat} (h : n ≤ Word.maxSigned) : (literal n).Holds n := by
  unfold literal
  split
  · next hn => exact holds_natCast hn
  · exact holds_natCast h

theorem common_longLong_literal (n : Nat) : longLong.common (literal n) = longLong := by
  unfold literal
  split <;> rfl

theorem common_unsignedLongLong_literal (n : Nat) :
    unsignedLongLong.common (literal n) = unsignedLongLong := by
  unfold literal
  split <;> rfl

end IntType

variable {ρ : Type} {m : Machine ρ} {env : Scope ρ}

/-! ## Names and conversions -/

theorem convert_int {type : CType} {t : IntType} (ht : type.integer = some t) {n : Int}
    (hn : t.Holds n) (u : IntType) : convert m.floating type (.int u n) = some (.int t n) := by
  have hbring : t.bring n = some n := IntType.bring_of_holds hn
  simp only [convert, ht, hbring, Option.bind_eq_bind, Option.bind_some]

theorem convert_real {type : CType} (ht : type.integer = none) (x : ρ) :
    convert m.floating type (.real x) = some (.real (m.floating.convert type x)) := if_pos ht

theorem Scope.value?_cons_self (v : String) (x : Variable ρ) (env : Scope ρ) :
    Scope.value? m ((v, x) :: env) v = some x.value := by
  unfold Scope.value?
  rw [List.lookup_cons_self]

/-! ## Integer expressions -/

namespace Expr

variable {a b e : Expr} {t u w : IntType}

/-- An expression is worked out to a number of a type, without a look at memory. -/
def Yields (m : Machine ρ) (env : Scope ρ) (e : Expr) (t : IntType) (n : Int) : Prop :=
  e.eval m env = .done (.int t n) [] ∧ t.Holds n

theorem yields_name {v : String} {n : Int} (h : env.value? m v = some (.int t n))
    (hn : t.Holds n) : (name v).Yields m env t n := by
  refine ⟨?_, hn⟩
  show (liftM (env.value? m v) : Traced (Access ρ) (Value ρ)) = _
  rw [h]
  rfl

theorem yields_word {n : Nat} (h : n ≤ Word.maxUnsigned) :
    (word n).Yields m env .unsignedLongLong n :=
  ⟨if_pos h, IntType.holds_natCast h⟩

theorem yields_int {n : Nat} (h : n ≤ Word.maxSigned) :
    (int n).Yields m env (IntType.literal n) n := by
  refine ⟨?_, IntType.holds_literal h⟩
  show (do let t ← liftM (IntType.ofLiteral (n : Int).natAbs); pure (.int t n) :
    Traced (Access ρ) (Value ρ)) = _
  rw [Int.natAbs_natCast, IntType.ofLiteral_eq_some h, Traced.liftM_some_bind]
  rfl

theorem Yields.paren {n : Int} (h : e.Yields m env t n) : (paren e).Yields m env t n := h

theorem Yields.cast {type : CType} {n : Nat} (h : e.Yields m env t n) (ht : type.integer = some u)
    (hn : n ≤ u.greatest) : (cast type e).Yields m env u n := by
  have hholds : u.Holds n := IntType.holds_natCast hn
  exact ⟨Traced.bind_liftM_eq_done h.1 (convert_int ht hholds t), hholds⟩

theorem eval_binary {op : BinOp} (h : op ≠ .either) :
    (binary op a b).eval m env = (do
      let x ← a.eval m env
      let y ← b.eval m env
      combine m.floating op x y) := by
  cases op <;> first | rfl | exact absurd rfl h

/-- Arithmetic on numbers that their common type holds, with a result that it holds. -/
theorem Yields.binary {op : BinOp} {x y z : Int} (ha : a.Yields m env t x) (hb : b.Yields m env u y)
    (hx : (t.common u).Holds x) (hy : (t.common u).Holds y) (hop : op.onIntegers x y = some z)
    (hz : (t.common u).Holds z) : (Expr.binary op a b).Yields m env (t.common u) z := by
  have heither : op ≠ .either := by
    rintro rfl
    cases hop
  refine ⟨?_, hz⟩
  rw [eval_binary heither, Traced.bind_of_pure ha.1, Traced.bind_of_pure hb.1]
  have hcombine : combine m.floating op (.int t x) (.int u y) = some (.int (t.common u) z) := by
    unfold combine
    dsimp only
    rw [IntType.bring_of_holds hx, IntType.bring_of_holds hy]
    cases op with
    | less | atLeast | either => cases hop
    | _ => simp only [Option.bind_eq_bind, Option.bind_some, hop, IntType.bring_of_holds hz]
  rw [hcombine]
  rfl

section

variable {x y : Nat} (ha : a.Yields m env t x) (hb : b.Yields m env u y) (hw : t.common u = w)

include ha hb hw

theorem Yields.add (h : x + y ≤ w.greatest) : (a + b).Yields m env w (x + y : Nat) := by
  subst hw
  have hop : BinOp.onIntegers x y .add = some ((x + y : Nat) : Int) := by
    rw [Nat.cast_add]
    rfl
  exact Yields.binary ha hb (ha.2.common_left u) (hb.2.common_right t) hop (IntType.holds_natCast h)

theorem Yields.mul (h : x * y ≤ w.greatest) : (a * b).Yields m env w (x * y : Nat) := by
  subst hw
  have hop : BinOp.onIntegers x y .mul = some ((x * y : Nat) : Int) := by
    rw [Nat.cast_mul]
    rfl
  exact Yields.binary ha hb (ha.2.common_left u) (hb.2.common_right t) hop (IntType.holds_natCast h)

theorem Yields.div (h : 0 < y) : (a / b).Yields m env w (x / y : Nat) := by
  subst hw
  have hop : BinOp.onIntegers x y .div = some ((x / y : Nat) : Int) := by
    show (if (y : Int) = 0 then none else some ((x : Int).tdiv y)) = _
    rw [if_neg (by omega), Int.ofNat_tdiv]
  have hx : (x : Int) ≤ (t.common u).greatest := (ha.2.common_left u).2
  have hle : x / y ≤ x := Nat.div_le_self x y
  exact Yields.binary ha hb (ha.2.common_left u) (hb.2.common_right t) hop
    (IntType.holds_natCast (by omega))

theorem Yields.mod (h : 0 < y) : (a % b).Yields m env w (x % y : Nat) := by
  subst hw
  have hop : BinOp.onIntegers x y .mod = some ((x % y : Nat) : Int) := by
    show (if (y : Int) = 0 then none else some ((x : Int).tmod y)) = _
    rw [if_neg (by omega), Int.ofNat_tmod]
  have hx : (x : Int) ≤ (t.common u).greatest := (ha.2.common_left u).2
  have hle : x % y ≤ x := Nat.mod_le x y
  exact Yields.binary ha hb (ha.2.common_left u) (hb.2.common_right t) hop
    (IntType.holds_natCast (by omega))

end

theorem Yields.sub {x y : Nat} (ha : a.Yields m env t x) (hb : b.Yields m env u y)
    (hw : t.common u = .longLong) : (a - b).Yields m env .longLong (x - y) := by
  have hx : (t.common u).Holds x := ha.2.common_left u
  have hy : (t.common u).Holds y := hb.2.common_right t
  rw [← hw]
  refine Yields.binary ha hb hx hy rfl ?_
  rw [hw] at hx hy ⊢
  have hx' : (x : Int) ≤ Word.maxSigned := hx.2
  have hy' : (y : Int) ≤ Word.maxSigned := hy.2
  show -((Word.maxSigned : Int) + 1) ≤ x - y ∧ (x : Int) - y ≤ Word.maxSigned
  omega

/-! ## Floating expressions -/

/-- An expression gives a floating value and loads these elements. -/
def Reads (m : Machine ρ) (env : Scope ρ) (e : Expr) (l : List (Access ρ)) : Prop :=
  ∃ x, e.eval m env = .done (.real x) l

variable {l l' : List (Access ρ)}

theorem reads_name {v : String} {x : ρ} (h : env.value? m v = some (.real x)) :
    (name v).Reads m env [] := by
  refine ⟨x, ?_⟩
  show (liftM (env.value? m v) : Traced (Access ρ) (Value ρ)) = _
  rw [h]
  rfl

theorem reads_real (constant : String) : (real constant).Reads m env [] :=
  ⟨m.floating.constant constant, rfl⟩

theorem Reads.paren (h : e.Reads m env l) : (paren e).Reads m env l := h

theorem eval_arithmetic {x y : ρ} {op : BinOp} (ha : a.eval m env = .done (.real x) l)
    (hb : b.eval m env = .done (.real y) l')
    (hop : op = .add ∨ op = .sub ∨ op = .mul ∨ op = .div) :
    (Expr.binary op a b).eval m env = .done (.real (m.floating.arithmetic op x y)) (l ++ l') := by
  have heither : op ≠ .either := by
    rintro rfl
    simp at hop
  have hcombine : combine m.floating op (.real x) (.real y) =
      some (.real (m.floating.arithmetic op x y)) := by
    rcases hop with rfl | rfl | rfl | rfl <;> rfl
  rw [eval_binary heither]
  exact Traced.bind_eq_done ha (Traced.bind_liftM_eq_done hb hcombine)

theorem Reads.binary {op : BinOp} (ha : a.Reads m env l) (hb : b.Reads m env l')
    (hop : op = .add ∨ op = .sub ∨ op = .mul ∨ op = .div) :
    (Expr.binary op a b).Reads m env (l ++ l') := by
  obtain ⟨x, hx⟩ := ha
  obtain ⟨y, hy⟩ := hb
  exact ⟨_, eval_arithmetic hx hy hop⟩

theorem Reads.cast {type : CType} (h : e.Reads m env l) (ht : type.integer = none) :
    (cast type e).Reads m env l := by
  obtain ⟨x, hx⟩ := h
  exact ⟨_, Traced.bind_liftM_eq_done hx (convert_real ht x)⟩

theorem Reads.call (function : String) (h : e.Reads m env l) :
    (call function e).Reads m env l := by
  obtain ⟨x, hx⟩ := h
  refine ⟨m.floating.call function x, ?_⟩
  rw [← List.append_nil l]
  exact Traced.bind_eq_done hx rfl

theorem Reads.callPair (function : String) (ha : a.Reads m env l) (hb : b.Reads m env l') :
    (callPair function a b).Reads m env (l ++ l') := by
  obtain ⟨x, hx⟩ := ha
  obtain ⟨y, hy⟩ := hb
  rw [← List.append_nil l']
  exact ⟨m.floating.callPair function x y, Traced.bind_eq_done hx (Traced.bind_eq_done hy rfl)⟩

theorem Yields.eval_load {array : String} {p : Nat} {xs : List ρ} {x : ρ} (h : e.Yields m env t p)
    (harray : m.array array = some xs) (hx : xs[p]? = some x) :
    (Expr.load array e).eval m env = .done (.real x) [.load array p] := by
  have hloaded : loaded m array (.int t p) = .done (.real x) [.load array p] := by
    unfold loaded
    dsimp only
    rw [if_pos (by omega), Int.toNat_natCast, harray, Option.bind_some, hx]
    rfl
  exact (Traced.bind_of_pure h.1).trans hloaded

theorem Yields.load {array : String} {p : Nat} {xs : List ρ} (h : e.Yields m env t p)
    (harray : m.array array = some xs) (hp : p < xs.length) :
    (load array e).Reads m env [.load array p] :=
  ⟨xs[p], h.eval_load harray (List.getElem?_eq_getElem hp)⟩

/-! ## Conditions -/

theorem holds_truth (p : Prop) [Decidable p] : IntType.int.Holds (if p then 1 else 0) := by
  by_cases hp : p
  · rw [if_pos hp]
    decide
  · rw [if_neg hp]
    decide

section

variable {x y : Int} (ha : a.Yields m env t x) (hb : b.Yields m env u y)

include ha hb

theorem Yields.less (hx : (t.common u).Holds x) (hy : (t.common u).Holds y) :
    (Expr.binary .less a b).Yields m env .int (if x < y then 1 else 0) := by
  refine ⟨?_, holds_truth _⟩
  have hcombine : combine m.floating .less (.int t x) (.int u y) = some (truth (x < y)) := by
    unfold combine
    dsimp only
    rw [IntType.bring_of_holds hx, IntType.bring_of_holds hy]
    rfl
  rw [eval_binary (by decide), Traced.bind_of_pure ha.1]
  exact Traced.bind_liftM_eq_done hb.1 hcombine

theorem Yields.atLeast (hx : (t.common u).Holds x) (hy : (t.common u).Holds y) :
    (Expr.binary .atLeast a b).Yields m env .int (if x ≥ y then 1 else 0) := by
  refine ⟨?_, holds_truth _⟩
  have hcombine : combine m.floating .atLeast (.int t x) (.int u y) = some (truth (x ≥ y)) := by
    unfold combine
    dsimp only
    rw [IntType.bring_of_holds hx, IntType.bring_of_holds hy]
    rfl
  rw [eval_binary (by decide), Traced.bind_of_pure ha.1]
  exact Traced.bind_liftM_eq_done hb.1 hcombine

theorem Yields.either :
    (Expr.binary .either a b).Yields m env .int (if x ≠ 0 ∨ y ≠ 0 then 1 else 0) := by
  refine ⟨?_, holds_truth _⟩
  have heval : (Expr.binary .either a b).eval m env = (do
      let x ← a.eval m env
      if ← x.isTrue then pure (truth True)
      else do
        let y ← b.eval m env
        pure (truth ((← y.isTrue) = true))) := rfl
  rw [heval, Traced.bind_of_pure ha.1]
  show (liftM (some (decide (x ≠ 0))) >>= _) = _
  rw [Traced.liftM_some_bind]
  by_cases hx : x ≠ 0
  · rw [if_pos (decide_eq_true hx), if_pos (Or.inl hx)]
    rfl
  · rw [if_neg (by simp [hx]), Traced.bind_of_pure hb.1]
    show (liftM (some (decide (y ≠ 0))) >>= _) = _
    rw [Traced.liftM_some_bind]
    by_cases hy : y ≠ 0
    · rw [if_pos (Or.inr hy), decide_eq_true hy]
      rfl
    · rw [if_neg (by omega), decide_eq_false hy]
      rfl

end

end Expr

/-! ## Statements -/

namespace Stmt

variable {l l' : List (Access ρ)} {env' : Scope ρ}

theorem exec_sequence {first second : Stmt} {r : Flow × Scope ρ}
    (h : first.exec m env = .done (.next, env') l) (h' : second.exec m env' = .done r l') :
    (sequence first second).exec m env = .done r (l ++ l') := Traced.bind_eq_done h h'

theorem exec_sequence_of_ne {first second : Stmt} {flow : Flow}
    (h : first.exec m env = .done (flow, env') l) (hflow : flow ≠ .next) :
    (sequence first second).exec m env = .done (flow, env') l := by
  rw [← List.append_nil l]
  refine Traced.bind_eq_done h ?_
  cases flow with
  | next => exact absurd rfl hflow
  | skip | leave => rfl

theorem define_cons_int {type : CType} {v : String} {e : Expr} {rest : List (String × Expr)}
    {t u : IntType} {n : Int} (h : e.Yields m env u n) (ht : type.integer = some t)
    (hn : t.Holds n) :
    define m type env ((v, e) :: rest) = define m type ((v, ⟨type, .int t n⟩) :: env) rest := by
  unfold define
  rw [List.foldlM_cons]
  refine Traced.bind_of_pure ((Traced.bind_of_pure h.1).trans ?_)
  rw [convert_int ht hn, Traced.liftM_some_bind]
  rfl

theorem define_cons_real {type : CType} {v : String} {e : Expr} {rest : List (String × Expr)}
    (h : e.Reads m env []) (ht : type.integer = none) :
    ∃ x, define m type env ((v, e) :: rest) = define m type ((v, ⟨type, .real x⟩) :: env) rest := by
  obtain ⟨x, hx⟩ := h
  refine ⟨m.floating.convert type x, ?_⟩
  unfold define
  rw [List.foldlM_cons]
  refine Traced.bind_of_pure ((Traced.bind_of_pure hx).trans ?_)
  rw [convert_real ht, Traced.liftM_some_bind]
  rfl

theorem exec_declare {type : CType} {definitions : List (String × Expr)} (constant : Bool)
    (h : define m type env definitions = .done env' []) :
    (declare constant type definitions).exec m env = .done (.next, env') [] :=
  (Traced.bind_of_pure h).trans rfl

theorem set_cons_self {type : CType} (ht : type.integer = none) (v : String) (x y : ρ) :
    Scope.set m v (.real x) ((v, ⟨type, .real y⟩) :: env) =
      some ((v, ⟨type, .real (m.floating.convert type x)⟩) :: env) := by
  unfold Scope.set
  rw [if_pos rfl, convert_real ht]
  rfl

theorem set_cons_of_ne {v w : String} (hne : w ≠ v) (x : Value ρ) (y : Variable ρ)
    (h : Scope.set m v x env = some env') :
    Scope.set m v x ((w, y) :: env) = some ((w, y) :: env') := by
  unfold Scope.set
  rw [if_neg hne, h]
  rfl

theorem exec_assign {v : String} {e : Expr} {state : ρ → Scope ρ} (h : e.Reads m env l)
    (hset : ∀ x, env.set m v (.real x) = some (state x)) :
    ∃ x, (assign (.name v) e).exec m env = .done (.next, state x) l := by
  obtain ⟨x, hx⟩ := h
  refine ⟨x, ?_⟩
  rw [← List.append_nil l]
  refine Traced.bind_eq_done hx ?_
  show (liftM (env.set m v (.real x)) >>= fun env => pure (Flow.next, env)) = _
  rw [hset, Traced.liftM_some_bind]
  rfl

theorem exec_increase {v : String} {e : Expr} {state : ρ → Scope ρ} {old : ρ}
    (hold : env.value? m v = some (.real old)) (h : e.Reads m env l)
    (hset : ∀ x, env.set m v (.real x) = some (state x)) :
    ∃ x, (increase (.name v) e).exec m env = .done (.next, state x) l := by
  obtain ⟨x, hx⟩ := h
  refine ⟨m.floating.arithmetic .add old x, ?_⟩
  show (liftM (env.value? m v) >>= _) = _
  rw [hold, Traced.liftM_some_bind, ← List.append_nil l]
  refine Traced.bind_eq_done hx ?_
  show (liftM (some _) >>= _) = _
  rw [Traced.liftM_some_bind]
  show (liftM (env.set m v (.real (m.floating.arithmetic .add old x))) >>= fun env =>
    pure (Flow.next, env)) = _
  rw [hset, Traced.liftM_some_bind]
  rfl

theorem exec_store_of_eval {index value : Expr} {t : IntType} {p : Nat} {x : ρ}
    (h : value.eval m env = .done (.real x) l) (hindex : index.Yields m env t p)
    (hp : p < m.count) (helement : m.element.integer = none) :
    (assign (.load "out" index) value).exec m env =
      .done (.next, env) (l ++ [.store p (m.floating.convert m.element x)]) := by
  refine Traced.bind_eq_done h ?_
  have hput : put m env (.real x) (.load "out" index) =
      .done env [.store p (m.floating.convert m.element x)] := by
    refine (Traced.bind_of_pure hindex.1).trans ?_
    rw [convert_real helement, Traced.liftM_some_bind]
    dsimp only
    rw [if_pos ⟨rfl, by omega, by omega⟩, Int.toNat_natCast]
  rw [← List.append_nil [Access.store p _]]
  exact Traced.bind_eq_done hput rfl

theorem exec_store {index value : Expr} {t : IntType} {p : Nat} (h : value.Reads m env l)
    (hindex : index.Yields m env t p) (hp : p < m.count) (helement : m.element.integer = none) :
    ∃ x, (assign (.load "out" index) value).exec m env =
      .done (.next, env) (l ++ [.store p x]) := by
  obtain ⟨x, hx⟩ := h
  exact ⟨_, exec_store_of_eval hx hindex hp helement⟩

theorem exec_skipIf {e : Expr} {t : IntType} {n : Int} (h : e.Yields m env t n) :
    (skipIf e).exec m env = .done (if n ≠ 0 then .skip else .next, env) [] := by
  refine (Traced.bind_of_pure h.1).trans ?_
  show (liftM (some (decide (n ≠ 0))) >>= _) = _
  rw [Traced.liftM_some_bind]
  by_cases hn : n ≠ 0 <;> simp [hn] <;> rfl

theorem exec_leaveIf {e : Expr} {t : IntType} {n : Int} (h : e.Yields m env t n) :
    (leaveIf e).exec m env = .done (if n ≠ 0 then .leave else .next, env) [] := by
  refine (Traced.bind_of_pure h.1).trans ?_
  show (liftM (some (decide (n ≠ 0))) >>= _) = _
  rw [Traced.liftM_some_bind]
  by_cases hn : n ≠ 0 <;> simp [hn] <;> rfl

/-! ## Loops -/

theorem iterations_eq_some {t u : IntType} {n : Nat} (hn : n ≤ t.greatest) (hu : u.Holds n) :
    iterations t (.int u n : Value ρ) = some n := by
  have hbring : (t.common u).bring n = some (n : Int) := IntType.bring_of_holds (hu.common_right t)
  have hle : (n : Int) ≤ t.greatest := by omega
  simp only [iterations, hbring, Option.bind_eq_bind, Option.bind_some, if_pos hle,
    Int.toNat_natCast]

section

variable {α : Type} {state : α → Scope ρ} {trace : Nat → List (Access ρ)} {t u : IntType} {n : Nat}
  {type : CType} {v : String} {body : Stmt} (hlen : ∀ a b, (state a).length = (state b).length)
  (hbody : ∀ k < n, ∀ a, ∃ flow a' inner, flow ≠ .leave ∧
    body.exec m ((v, ⟨type, .int t k⟩) :: state a) = .done (flow, inner ++ state a') (trace k))

include hlen hbody

/-- One iteration keeps the form of the scope and makes its own accesses. -/
theorem exists_iterate {k : Nat} (hk : k < n) {flow : Flow} (hflow : flow ≠ .leave) (a : α) :
    ∃ flow' a', flow' ≠ .leave ∧ iterate (body.exec m) v ⟨type, .int t k⟩ (flow, state a) =
      .done (flow', state a') (trace k) := by
  obtain ⟨flow', a', inner, hflow', hexec⟩ := hbody k hk a
  refine ⟨flow', a', hflow', ?_⟩
  have hdrop : (inner ++ state a').drop ((inner ++ state a').length - (state a).length) =
      state a' := by
    rw [List.length_append, hlen a a', Nat.add_sub_cancel, List.drop_left]
  have hiterate : iterate (body.exec m) v ⟨type, .int t k⟩ (flow, state a) =
      (body.exec m ((v, ⟨type, .int t k⟩) :: state a) >>= fun r =>
        pure (r.1, r.2.drop (r.2.length - (state a).length))) := by
    cases flow with
    | leave => exact absurd rfl hflow
    | next | skip => rfl
  rw [hiterate, ← List.append_nil (trace k)]
  refine Traced.bind_eq_done hexec ?_
  rw [hdrop]
  rfl

/-- A loop makes the accesses of its iterations, one after the other, if each of them leaves
a scope of the same form. -/
theorem exec_loop {bound : Expr} (place : Placement) (ht : type.integer = some t)
    (hbound : ∀ a, bound.Yields m (state a) u n) (hn : n ≤ t.greatest) (a : α) :
    ∃ a', (loop type v bound place body).exec m (state a) =
      .done (.next, state a') ((List.range n).flatMap trace) := by
  have hfold : ∀ ks : List Nat, (∀ k ∈ ks, k < n) → ∀ flow a, flow ≠ Flow.leave →
      ∃ flow' a', flow' ≠ Flow.leave ∧
        ks.foldlM (fun r (k : Nat) => iterate (body.exec m) v ⟨type, .int t k⟩ r) (flow, state a) =
          .done (flow', state a') (ks.flatMap trace) := by
    intro ks
    induction ks with
    | nil => exact fun _ flow a hflow => ⟨flow, a, hflow, rfl⟩
    | cons k ks ih =>
      intro hks flow a hflow
      obtain ⟨flow₁, a₁, hflow₁, h₁⟩ :=
        exists_iterate hlen hbody (hks k List.mem_cons_self) hflow a
      obtain ⟨flow₂, a₂, hflow₂, h₂⟩ :=
        ih (fun k hk => hks k (List.mem_cons_of_mem _ hk)) flow₁ a₁ hflow₁
      refine ⟨flow₂, a₂, hflow₂, ?_⟩
      rw [List.foldlM_cons, List.flatMap_cons]
      exact Traced.bind_eq_done h₁ h₂
  obtain ⟨flow, a', hflow, h⟩ :=
    hfold (List.range n) (fun k hk => List.mem_range.mp hk) .next a (by decide)
  refine ⟨a', ?_⟩
  show (liftM type.integer >>= fun t => bound.eval m (state a) >>= fun b =>
    liftM (iterations t b) >>= fun count => _) = _
  rw [ht, Traced.liftM_some_bind, Traced.bind_of_pure (hbound a).1,
    iterations_eq_some hn (hbound a).2, Traced.liftM_some_bind,
    ← List.append_nil (List.flatMap _ _)]
  refine Traced.bind_eq_done h ?_
  dsimp only
  rw [if_neg hflow]
  rfl

end

end Stmt
end Cuda
end TensorGraph
