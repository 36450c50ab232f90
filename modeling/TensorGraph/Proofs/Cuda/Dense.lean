/-
The kernels of the matrix product and of softmax, run by one thread.

`exec_gemmBody` and `exec_softmaxBody` list the accesses of a thread in closed form: for the
row and the column that its number stands for, and for the lane that its number lies in.
What is accumulated on the way is left open.  All positions are formed with words, and the
hypotheses on the lengths of the operands keep them from wrapping.
-/
import TensorGraph.Proofs.Cuda.Execution

namespace TensorGraph
namespace Cuda

open Stmt

variable {ρ : Type} {m : Machine ρ}

/-! ## Row-major numbers -/

theorem mul_add_lt {a b n k : Nat} (ha : a < n) (hb : b < k) : a * k + b < n * k :=
  calc a * k + b < a * k + k := Nat.add_lt_add_left hb _
    _ = (a + 1) * k := by rw [Nat.add_mul, Nat.one_mul]
    _ ≤ n * k := Nat.mul_le_mul_right k ha

theorem mul_add_div {b k : Nat} (a : Nat) (hb : b < k) : (a * k + b) / k = a := by
  rw [Nat.mul_comm, Nat.mul_add_div (by omega), Nat.div_eq_of_lt hb, Nat.add_zero]

theorem mul_add_mod {b k : Nat} (a : Nat) (hb : b < k) : (a * k + b) % k = b := by
  rw [Nat.mul_comm, Nat.mul_add_mod, Nat.mod_eq_of_lt hb]

/-! ## Scopes -/

def wordVar (v : String) (n : Nat) : String × Variable ρ :=
  (v, ⟨.unsignedWord, .int .unsignedLongLong n⟩)

def realVar (v : String) (x : ρ) : String × Variable ρ := (v, ⟨.double, .real x⟩)

theorem yields_wordVar {env : Scope ρ} {v : String} {n : Nat}
    (h : env.value? m v = some (.int .unsignedLongLong n)) (hn : n ≤ Word.maxUnsigned) :
    (Expr.name v).Yields m env .unsignedLongLong n :=
  Expr.yields_name h (IntType.holds_natCast hn)

theorem reads_widened {env : Scope ρ} {array : String} {index : Expr} {t : IntType} {p : Nat}
    {xs : List ρ} (h : index.Yields m env t p) (harray : m.array array = some xs)
    (hp : p < xs.length) : (widened array index).Reads m env [.load array p] :=
  (h.load harray hp).cast rfl

theorem exec_declare_real (env : Scope ρ) (v constant : String) :
    ∃ x, (declare false .double [(v, .real constant)]).exec m env =
      .done (.next, realVar v x :: env) [] := by
  obtain ⟨x, hx⟩ : ∃ x, define m .double env [(v, .real constant)] =
      define m .double (realVar v x :: env) [] := define_cons_real (Expr.reads_real constant) rfl
  exact ⟨x, exec_declare false hx⟩

/-! ## Matrix product -/

section

variable {xs ys : List ρ} {rows columns inner r c : Nat}

def gemmScope (columns r c : Nat) (acc : ρ) : Scope ρ :=
  [realVar "acc" acc, wordVar "c" c, wordVar "r" r, wordVar "i" (r * columns + c)]

theorem exec_gemmLoop (h0 : m.array "in0" = some xs) (h1 : m.array "in1" = some ys)
    (hxs : xs.length = rows * inner) (hys : ys.length = inner * columns)
    (hfit0 : rows * inner ≤ Word.maxUnsigned) (hfit1 : inner * columns ≤ Word.maxUnsigned)
    (hr : r < rows) (hc : c < columns) (acc : ρ) :
    ∃ acc', (loop .unsignedWord "l" (.word inner) .behind
        (.increase (.name "acc")
          (widened "in0" (.name "r" * .word inner + .name "l") *
            widened "in1" (.name "l" * .word columns + .name "c")))).exec m
        (gemmScope columns r c acc) =
      .done (.next, gemmScope columns r c acc') ((List.range inner).flatMap fun l =>
        [.load "in0" (r * inner + l), .load "in1" (l * columns + c)]) := by
  have hinner : inner ≤ rows * inner := Nat.le_mul_of_pos_left _ (by omega)
  have hbound : inner ≤ IntType.unsignedLongLong.greatest := hinner.trans hfit0
  refine exec_loop (fun _ _ => rfl) (fun l hl acc => ?_) .behind rfl
    (fun _ => Expr.yields_word hbound) hbound acc
  have hleft : r * inner + l < rows * inner := mul_add_lt hr hl
  have hright : l * columns + c < inner * columns := mul_add_lt hl hc
  have hcolumns : columns ≤ inner * columns := Nat.le_mul_of_pos_left _ (by omega)
  have hrow : r ≤ r * inner := Nat.le_mul_of_pos_right _ (by omega)
  have hindex0 : r * inner + l ≤ Word.maxUnsigned := by omega
  have hindex1 : l * columns + c ≤ Word.maxUnsigned := by omega
  let env : Scope ρ := wordVar "l" l :: gemmScope columns r c acc
  have hl' : (Expr.name "l").Yields m env .unsignedLongLong l := yields_wordVar rfl (by omega)
  have hr' : (Expr.name "r").Yields m env .unsignedLongLong r := yields_wordVar rfl (by omega)
  have hc' : (Expr.name "c").Yields m env .unsignedLongLong c := yields_wordVar rfl (by omega)
  have hinner' : (Expr.word inner).Yields m env .unsignedLongLong inner :=
    Expr.yields_word (by omega)
  have hcolumns' : (Expr.word columns).Yields m env .unsignedLongLong columns :=
    Expr.yields_word (by omega)
  have hleft' : (Expr.name "r" * .word inner + .name "l").Yields m env .unsignedLongLong
      (r * inner + l : Nat) :=
    (hr'.mul hinner' rfl ((Nat.le_add_right _ l).trans hindex0)).add hl' rfl hindex0
  have hright' : (Expr.name "l" * .word columns + .name "c").Yields m env .unsignedLongLong
      (l * columns + c : Nat) :=
    (hl'.mul hcolumns' rfl ((Nat.le_add_right _ c).trans hindex1)).add hc' rfl hindex1
  have hproduct : (widened "in0" (.name "r" * .word inner + .name "l") *
      widened "in1" (.name "l" * .word columns + .name "c") : Expr).Reads m env
      ([.load "in0" (r * inner + l)] ++ [.load "in1" (l * columns + c)]) :=
    (reads_widened hleft' h0 (by omega)).binary (reads_widened hright' h1 (by omega))
      (Or.inr (Or.inr (Or.inl rfl)))
  have hset : ∀ x, Scope.set m "acc" (.real x) env =
      some (wordVar "l" l :: gemmScope columns r c (m.floating.convert .double x)) :=
    fun x => set_cons_of_ne (by decide) _ _ (set_cons_self rfl "acc" x acc)
  obtain ⟨x, hx⟩ := exec_increase rfl hproduct hset
  exact ⟨.next, m.floating.convert .double x, [wordVar "l" l], by decide, hx⟩

theorem exec_gemmBody (element : String) (factor : Nat) (h0 : m.array "in0" = some xs)
    (h1 : m.array "in1" = some ys) (hxs : xs.length = rows * inner)
    (hys : ys.length = inner * columns) (hcount : m.count = rows * columns)
    (helement : m.element.integer = none) (hfit0 : rows * inner ≤ Word.maxUnsigned)
    (hfit1 : inner * columns ≤ Word.maxUnsigned) (hfit : rows * columns ≤ Word.maxUnsigned)
    (hr : r < rows) (hc : c < columns) :
    ∃ env x, (gemmBody (.element element) factor inner columns).exec m
        [wordVar "i" (r * columns + c)] =
      .done (.next, env) ((List.range inner).flatMap (fun l =>
        [.load "in0" (r * inner + l), .load "in1" (l * columns + c)]) ++
        [.store (r * columns + c) x]) := by
  have hi : r * columns + c < rows * columns := mul_add_lt hr hc
  have hcolumns : columns ≤ rows * columns := Nat.le_mul_of_pos_left _ (by omega)
  have hthread : ∀ rest : Scope ρ, Scope.value? m rest "i" =
      some (.int .unsignedLongLong (r * columns + c : Nat)) →
      thread.Yields m rest .unsignedLongLong (r * columns + c : Nat) :=
    fun rest h => yields_wordVar h (by omega)
  have hrow : (thread / .word columns).Yields m [wordVar "i" (r * columns + c)]
      .unsignedLongLong r := by
    have h := (hthread [wordVar "i" (r * columns + c)] rfl).div (Expr.yields_word (by omega)) rfl
      (by omega : 0 < columns)
    rwa [mul_add_div r hc] at h
  have hcolumn : (thread % .word columns).Yields m
      [wordVar "r" r, wordVar "i" (r * columns + c)] .unsignedLongLong c := by
    have h := (hthread [wordVar "r" r, wordVar "i" (r * columns + c)] rfl).mod
      (Expr.yields_word (by omega)) rfl (by omega : 0 < columns)
    rwa [mul_add_mod r hc] at h
  have hdefine : define m .unsignedWord [wordVar "i" (r * columns + c)]
      [("r", thread / .word columns), ("c", thread % .word columns)] =
      .done [wordVar "c" c, wordVar "r" r, wordVar "i" (r * columns + c)] [] := by
    rw [define_cons_int hrow rfl hrow.2]
    exact (define_cons_int hcolumn rfl hcolumn.2).trans rfl
  obtain ⟨acc, hacc⟩ := exec_declare_real (m := m)
    [wordVar "c" c, wordVar "r" r, wordVar "i" (r * columns + c)] "acc" "0.0"
  obtain ⟨acc', hloop⟩ := exec_gemmLoop h0 h1 hxs hys hfit0 hfit1 hr hc acc
  have hscaled : (Expr.cast (.element element) (.paren (.name "acc" *
      .real (Format.single.text factorLayout factor)))).Reads m (gemmScope columns r c acc') [] :=
    ((Expr.reads_name rfl).binary (Expr.reads_real _)
      (Or.inr (Or.inr (Or.inl rfl)))).paren.cast rfl
  obtain ⟨x, hstore⟩ :=
    exec_store hscaled (hthread (gemmScope columns r c acc') rfl) (by omega) helement
  have hexec := exec_sequence (exec_declare true hdefine)
    (exec_sequence hacc (exec_sequence hloop hstore))
  exact ⟨_, x, hexec⟩

end

/-! ## Softmax -/

section

variable {xs : List ρ} {len inner base i : Nat}

def softmaxScope (base i : Nat) (acc : ρ × ρ) : Scope ρ :=
  [realVar "s" acc.2, realVar "m" acc.1, wordVar "base" base, wordVar "i" i]

def laneItem (inner : Nat) : Expr :=
  widened "in0" (.name "base" + .name "j" * .word inner)

theorem reads_laneItem (h0 : m.array "in0" = some xs) (hfit : xs.length ≤ Word.maxUnsigned)
    (hinner : 0 < inner) (hspan : len * inner ≤ xs.length)
    (hlane : ∀ j < len, base + j * inner < xs.length) {j : Nat} (hj : j < len) (acc : ρ × ρ) :
    (laneItem inner).Reads m (wordVar "j" j :: softmaxScope base i acc)
      [.load "in0" (base + j * inner)] := by
  have hindex := hlane j hj
  have hstep : j ≤ j * inner := Nat.le_mul_of_pos_right _ hinner
  have hinner' : inner ≤ len * inner := Nat.le_mul_of_pos_left _ (by omega)
  let env : Scope ρ := wordVar "j" j :: softmaxScope base i acc
  have hbase : (Expr.name "base").Yields m env .unsignedLongLong base :=
    yields_wordVar rfl (by omega)
  have hj' : (Expr.name "j").Yields m env .unsignedLongLong j := yields_wordVar rfl (by omega)
  have hfit' : base + j * inner ≤ Word.maxUnsigned := by omega
  have hmoved : (Expr.name "j" * .word inner).Yields m env .unsignedLongLong (j * inner : Nat) :=
    hj'.mul (Expr.yields_word (by omega)) rfl ((Nat.le_add_left _ base).trans hfit')
  exact reads_widened (hbase.add hmoved rfl hfit') h0 hindex

theorem exec_softmaxLoop (hfit : len * inner ≤ Word.maxUnsigned) (hinner : 0 < inner) {body : Stmt}
    (hbody : ∀ j < len, ∀ acc, ∃ acc', body.exec m (wordVar "j" j :: softmaxScope base i acc) =
      .done (.next, wordVar "j" j :: softmaxScope base i acc') [.load "in0" (base + j * inner)])
    (acc : ρ × ρ) :
    ∃ acc', (loop .unsignedWord "j" (.word len) .behind body).exec m (softmaxScope base i acc) =
      .done (.next, softmaxScope base i acc')
        ((List.range len).map fun j => .load "in0" (base + j * inner)) := by
  have hlen : len ≤ len * inner := Nat.le_mul_of_pos_right _ hinner
  have hlen' : len ≤ IntType.unsignedLongLong.greatest := hlen.trans hfit
  rw [List.map_eq_flatMap]
  refine exec_loop (fun _ _ => rfl) (fun j hj acc => ?_) .behind rfl
    (fun _ => Expr.yields_word hlen') hlen' acc
  obtain ⟨acc', h⟩ := hbody j hj acc
  exact ⟨.next, acc', [wordVar "j" j], by decide, h⟩

/-- The first loop of a softmax finds the largest element of the lane. -/
theorem exec_largest (h0 : m.array "in0" = some xs) (hfit : xs.length ≤ Word.maxUnsigned)
    (hinner : 0 < inner) (hspan : len * inner ≤ xs.length)
    (hlane : ∀ j < len, base + j * inner < xs.length) {j : Nat} (hj : j < len) (acc : ρ × ρ) :
    ∃ acc', (assign (.name "m") (.callPair "fmax" (.name "m") (laneItem inner))).exec m
        (wordVar "j" j :: softmaxScope base i acc) =
      .done (.next, wordVar "j" j :: softmaxScope base i acc')
        [.load "in0" (base + j * inner)] := by
  have hitem := reads_laneItem (i := i) h0 hfit hinner hspan hlane hj acc
  have hm : (Expr.name "m").Reads m (wordVar "j" j :: softmaxScope base i acc) [] :=
    Expr.reads_name rfl
  have hset : ∀ x, Scope.set m "m" (.real x) (wordVar "j" j :: softmaxScope base i acc) =
      some (wordVar "j" j :: softmaxScope base i (m.floating.convert .double x, acc.2)) :=
    fun x => set_cons_of_ne (by decide) _ _
      (set_cons_of_ne (by decide) _ _ (set_cons_self rfl "m" x acc.1))
  obtain ⟨x, hx⟩ := exec_assign (hm.callPair "fmax" hitem) hset
  exact ⟨_, hx⟩

/-- The second loop adds up the exponentials. -/
theorem exec_total (h0 : m.array "in0" = some xs) (hfit : xs.length ≤ Word.maxUnsigned)
    (hinner : 0 < inner) (hspan : len * inner ≤ xs.length)
    (hlane : ∀ j < len, base + j * inner < xs.length) {j : Nat} (hj : j < len) (acc : ρ × ρ) :
    ∃ acc', (increase (.name "s") (.call "exp" (laneItem inner - .name "m"))).exec m
        (wordVar "j" j :: softmaxScope base i acc) =
      .done (.next, wordVar "j" j :: softmaxScope base i acc')
        [.load "in0" (base + j * inner)] := by
  have hitem := reads_laneItem (i := i) h0 hfit hinner hspan hlane hj acc
  have hm : (Expr.name "m").Reads m (wordVar "j" j :: softmaxScope base i acc) [] :=
    Expr.reads_name rfl
  have hexp : (Expr.call "exp" (laneItem inner - .name "m")).Reads m
      (wordVar "j" j :: softmaxScope base i acc) [.load "in0" (base + j * inner)] :=
    (hitem.binary hm (Or.inr (Or.inl rfl))).call "exp"
  have hset : ∀ x, Scope.set m "s" (.real x) (wordVar "j" j :: softmaxScope base i acc) =
      some (wordVar "j" j :: softmaxScope base i (acc.1, m.floating.convert .double x)) :=
    fun x => set_cons_of_ne (by decide) _ _ (set_cons_self rfl "s" x acc.2)
  obtain ⟨x, hx⟩ := exec_increase rfl hexp hset
  exact ⟨_, hx⟩

theorem define_base (hfit : len * inner ≤ Word.maxUnsigned) (hinner : 0 < inner) (hlen : 0 < len)
    (hi : i ≤ Word.maxUnsigned) (hbase : i / (len * inner) * (len * inner) + i % inner = base)
    (hbase' : base ≤ Word.maxUnsigned) :
    define m .unsignedWord [wordVar "i" i]
      [("base", .paren (thread / .word (len * inner)) * .word (len * inner) +
        thread % .word inner)] = .done [wordVar "base" base, wordVar "i" i] [] := by
  have hpos : 0 < len * inner := Nat.mul_pos hlen hinner
  have hinner' : inner ≤ len * inner := Nat.le_mul_of_pos_left _ hlen
  have hthread : thread.Yields m [wordVar "i" i] .unsignedLongLong i := yields_wordVar rfl hi
  have hspan : (Expr.word (len * inner)).Yields m [wordVar "i" i] .unsignedLongLong
      (len * inner : Nat) := Expr.yields_word hfit
  have hblock : i / (len * inner) * (len * inner) ≤ Word.maxUnsigned :=
    (Nat.div_mul_le_self _ _).trans hi
  have hrest : (thread % .word inner).Yields m [wordVar "i" i] .unsignedLongLong
      (i % inner : Nat) := hthread.mod (Expr.yields_word (hinner'.trans hfit)) rfl hinner
  have hstart := ((hthread.div hspan rfl hpos).paren.mul hspan rfl hblock).add hrest rfl
    (hbase.trans_le hbase')
  rw [hbase] at hstart
  exact (define_cons_int hstart rfl hstart.2).trans rfl

theorem exec_declareAccumulators : ∃ acc, (declare false .double
    [("m", .real "-INFINITY"), ("s", .real "0.0")]).exec m [wordVar "base" base, wordVar "i" i] =
      .done (.next, softmaxScope base i acc) [] := by
  obtain ⟨x, hx⟩ : ∃ x, define m .double [wordVar "base" base, wordVar "i" i]
      [("m", .real "-INFINITY"), ("s", .real "0.0")] =
        define m .double [realVar "m" x, wordVar "base" base, wordVar "i" i]
          [("s", .real "0.0")] :=
    define_cons_real (Expr.reads_real _) rfl
  obtain ⟨y, hy⟩ : ∃ y, define m .double [realVar "m" x, wordVar "base" base, wordVar "i" i]
      [("s", .real "0.0")] = define m .double (softmaxScope base i (x, y)) [] :=
    define_cons_real (Expr.reads_real _) rfl
  exact ⟨(x, y), exec_declare false (hx.trans hy)⟩

theorem reads_share (element : String) (h0 : m.array "in0" = some xs)
    (hi : i < xs.length) (hfit : i ≤ Word.maxUnsigned) (acc : ρ × ρ) :
    (Expr.cast (.element element) (.paren
      (.call "exp" (widened "in0" thread - .name "m") / .name "s"))).Reads m
      (softmaxScope base i acc) [.load "in0" i] := by
  have hthread : thread.Yields m (softmaxScope base i acc) .unsignedLongLong i :=
    yields_wordVar rfl hfit
  have hitem : (widened "in0" thread).Reads m (softmaxScope base i acc) [.load "in0" i] :=
    reads_widened hthread h0 hi
  have hm : (Expr.name "m").Reads m (softmaxScope base i acc) [] := Expr.reads_name rfl
  have hs : (Expr.name "s").Reads m (softmaxScope base i acc) [] := Expr.reads_name rfl
  have hexp : (Expr.call "exp" (widened "in0" thread - .name "m")).Reads m
      (softmaxScope base i acc) [.load "in0" i] :=
    (hitem.binary hm (Or.inr (Or.inl rfl))).call "exp"
  exact (hexp.binary hs (Or.inr (Or.inr (Or.inr rfl)))).paren.cast rfl

theorem exec_softmaxBody (element : String) (h0 : m.array "in0" = some xs)
    (hcount : m.count = xs.length) (helement : m.element.integer = none)
    (hfit : xs.length ≤ Word.maxUnsigned) (hinner : 0 < inner) (hlen : 0 < len)
    (hspan : len * inner ≤ xs.length) (hi : i < xs.length)
    (hbase : i / (len * inner) * (len * inner) + i % inner = base)
    (hlane : ∀ j < len, base + j * inner < xs.length) :
    ∃ env x, (softmaxBody (.element element) len inner (len * inner)).exec m [wordVar "i" i] =
      .done (.next, env) (((List.range len).map fun j => .load "in0" (base + j * inner)) ++
        ((List.range len).map fun j => .load "in0" (base + j * inner)) ++
        [.load "in0" i] ++ [.store i x]) := by
  have hfirst : base < xs.length := by
    have h := hlane 0 hlen
    omega
  have hdefine := exec_declare true (define_base (m := m) (hspan.trans hfit) hinner hlen
    (hi.le.trans hfit) hbase (hfirst.le.trans hfit))
  obtain ⟨acc, hacc⟩ := exec_declareAccumulators (m := m) (i := i)
  obtain ⟨acc₁, hlargest⟩ := exec_softmaxLoop (hspan.trans hfit) hinner
    (fun j hj acc => exec_largest (i := i) h0 hfit hinner hspan hlane hj acc) acc
  obtain ⟨acc₂, htotal⟩ := exec_softmaxLoop (hspan.trans hfit) hinner
    (fun j hj acc => exec_total (i := i) h0 hfit hinner hspan hlane hj acc) acc₁
  have hthread : thread.Yields m (softmaxScope base i acc₂) .unsignedLongLong i :=
    yields_wordVar rfl (by omega)
  obtain ⟨x, hstore⟩ := exec_store (reads_share element h0 hi (hi.le.trans hfit) acc₂) hthread
    (by omega) helement
  have hexec := exec_sequence hdefine
    (exec_sequence hacc (exec_sequence hlargest (exec_sequence htotal hstore)))
  simp only [List.append_assoc]
  exact ⟨_, x, hexec⟩

end

end Cuda
end TensorGraph
