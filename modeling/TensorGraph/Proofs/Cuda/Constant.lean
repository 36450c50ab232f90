/-
Floating constants of C.

A decimal floating constant is a sequence of digits with a point among them, or with a power of ten
behind them, or both.  Without a suffix it is one of type `double`, and its number is rounded to the
nearest pattern of that type.  `Constant.read?` reads one, with a minus before it if it has one.
The text of a decimal that keeps its point is read as that decimal, so the text of a finite pattern
is read as a constant that is rounded to it: `read?_text_of_lt` and `readsAs_of_written`.
-/
import TensorGraph.Decimal.Layout
import TensorGraph.Proofs.Decimal.Shortest

namespace TensorGraph
namespace Cuda

structure Constant where
  negative : Bool
  decimal : Decimal
  deriving DecidableEq, Repr

namespace Constant

variable {whole fraction behind rest : List Char} {d : Decimal} {layout : Decimal.Layout}
  {f : Format} {bits : Nat}

def digits? (cs : List Char) : Option Nat :=
  if cs ≠ [] ∧ cs.all Char.isDigit then some (Nat.ofDigitChars 10 cs 0) else none

def signed? : List Char → Option Int
  | [] => none
  | c :: rest =>
    if c = '-' then (digits? rest).map fun n => -Int.ofNat n
    else if c = '+' then (digits? rest).map Int.ofNat
    else (digits? (c :: rest)).map Int.ofNat

def exponent? : List Char → Option Int
  | [] => none
  | c :: rest => if c = 'e' ∨ c = 'E' then signed? rest else none

/-- A constant without a sign.  The digits behind the point count down the power of ten. -/
def unsigned? (cs : List Char) : Option Decimal :=
  let whole := cs.takeWhile Char.isDigit
  match cs.dropWhile Char.isDigit with
  | [] => none
  | c :: rest =>
    if c = '.' then
      let fraction := rest.takeWhile Char.isDigit
      let behind := rest.dropWhile Char.isDigit
      if whole ++ fraction = [] then none
      else
        (if behind = [] then some 0 else exponent? behind).map fun power =>
          ⟨Nat.ofDigitChars 10 (whole ++ fraction) 0, power - fraction.length⟩
    else if whole = [] then none
    else (exponent? (c :: rest)).map fun power => ⟨Nat.ofDigitChars 10 whole 0, power⟩

def read? : List Char → Option Constant
  | [] => none
  | c :: rest =>
    if c = '-' then (unsigned? rest).map fun d => ⟨true, d⟩
    else (unsigned? (c :: rest)).map fun d => ⟨false, d⟩

/-- Whether a constant is rounded to a pattern. -/
def ReadsAs (c : Constant) (f : Format) (bits : Nat) : Prop :=
  c.negative = f.isNegative bits ∧ f.Nearest c.decimal.value (f.magnitude bits)

/-- No constant is rounded to two patterns. -/
theorem ReadsAs.unique {c : Constant} {a b : Nat} (ha : f.IsPattern a)
    (hb : f.IsPattern b) (h : c.ReadsAs f a) (h' : c.ReadsAs f b) : a = b := by
  have hsign : decide (a / f.signWeight % 2 = 1) = decide (b / f.signWeight % 2 = 1) :=
    h.1.symm.trans h'.1
  have hmagnitude : a % f.signWeight = b % f.signWeight := h.2.unique h'.2
  have hlta : a / f.signWeight < 2 := Nat.div_lt_of_lt_mul (by rwa [Nat.mul_comm])
  have hltb : b / f.signWeight < 2 := Nat.div_lt_of_lt_mul (by rwa [Nat.mul_comm])
  rw [decide_eq_decide, Nat.mod_eq_of_lt hlta, Nat.mod_eq_of_lt hltb] at hsign
  rw [← Nat.div_add_mod a f.signWeight, ← Nat.div_add_mod b f.signWeight, hmagnitude]
  generalize a / f.signWeight = p at hsign hlta
  generalize b / f.signWeight = q at hsign hltb
  rw [show p = q by omega]

/-! ## Reading digits -/

theorem span_digits (hwhole : ∀ c ∈ whole, c.isDigit = true) (rest : List Char)
    (hrest : ∀ c cs, rest = c :: cs → c.isDigit = false) :
    (whole ++ rest).takeWhile Char.isDigit = whole ∧
      (whole ++ rest).dropWhile Char.isDigit = rest := by
  rw [List.takeWhile_append_of_pos hwhole, List.dropWhile_append_of_pos hwhole]
  cases rest with
  | nil => simp
  | cons c cs =>
    have hc := hrest c cs rfl
    rw [List.takeWhile_cons_of_neg (by rw [hc]; exact Bool.false_ne_true),
      List.dropWhile_cons_of_neg (by rw [hc]; exact Bool.false_ne_true), List.append_nil]
    exact ⟨rfl, rfl⟩

theorem toList_digits (n : Nat) : (toString n).toList = Nat.toDigits 10 n := Nat.toList_repr

theorem isDigit_of_mem_toDigits {n : Nat} {c : Char} (h : c ∈ Nat.toDigits 10 n) :
    c.isDigit = true := Nat.isDigit_of_mem_toDigits (by norm_num) le_rfl h

theorem digits?_toDigits (n : Nat) : digits? (Nat.toDigits 10 n) = some n := by
  rw [digits?, if_pos, Nat.ofDigitChars_ten_toDigits]
  exact ⟨Nat.toDigits_ne_nil, List.all_eq_true.mpr fun c => isDigit_of_mem_toDigits⟩

theorem exponent?_toString (z : ℤ) : exponent? ('e' :: (toString z).toList) = some z := by
  rw [exponent?, if_pos (Or.inl rfl)]
  rcases z with n | n
  · have htext : (toString (Int.ofNat n)).toList = Nat.toDigits 10 n := toList_digits n
    have hdigits := digits?_toDigits n
    have hdigit := fun c => isDigit_of_mem_toDigits (n := n) (c := c)
    rw [htext]
    generalize Nat.toDigits 10 n = cs at hdigits hdigit
    cases cs with
    | nil => cases hdigits
    | cons c cs =>
      have hminus : c ≠ '-' := by
        rintro rfl
        exact absurd (hdigit '-' List.mem_cons_self) (by decide)
      have hplus : c ≠ '+' := by
        rintro rfl
        exact absurd (hdigit '+' List.mem_cons_self) (by decide)
      rw [signed?, if_neg hminus, if_neg hplus, hdigits]
      rfl
  · have htext : (toString (Int.negSucc n)).toList = '-' :: Nat.toDigits 10 (n + 1) := by
      show ("-" ++ toString (n + 1)).toList = _
      rw [String.toList_append, toList_digits]
      rfl
    rw [htext, signed?, if_pos rfl, digits?_toDigits]
    rfl

theorem unsigned?_point (hwhole : ∀ c ∈ whole, c.isDigit = true)
    (hfraction : ∀ c ∈ fraction, c.isDigit = true) (hne : whole ++ fraction ≠ [])
    (hbehind : ∀ c cs, behind = c :: cs → c.isDigit = false) :
    unsigned? (whole ++ '.' :: (fraction ++ behind)) =
      (if behind = [] then some 0 else exponent? behind).map fun power =>
        ⟨Nat.ofDigitChars 10 (whole ++ fraction) 0, power - fraction.length⟩ := by
  obtain ⟨htake, hdrop⟩ := span_digits hwhole ('.' :: (fraction ++ behind))
    fun c cs h => by cases h; rfl
  obtain ⟨htake', hdrop'⟩ := span_digits hfraction behind hbehind
  unfold unsigned?
  rw [htake, hdrop]
  dsimp only
  rw [if_pos rfl, htake', hdrop', if_neg hne]

theorem unsigned?_exponent (hwhole : ∀ c ∈ whole, c.isDigit = true) (hne : whole ≠ []) :
    unsigned? (whole ++ 'e' :: rest) =
      (exponent? ('e' :: rest)).map fun power => ⟨Nat.ofDigitChars 10 whole 0, power⟩ := by
  obtain ⟨htake, hdrop⟩ := span_digits hwhole ('e' :: rest) fun c cs h => by cases h; rfl
  unfold unsigned?
  rw [htake, hdrop]
  dsimp only
  rw [if_neg (by decide), if_neg hne]

/-! ## Texts of decimals -/

theorem isDigit_of_mem_zeros {n : Nat} {c : Char} (h : c ∈ List.replicate n '0') :
    c.isDigit = true := by
  rw [List.eq_of_mem_replicate h]
  rfl

/-- A whole number is written with its zeros, a point and one zero more. -/
theorem unsigned?_whole (hpoint : layout.wholePoint = true) (hexponent : d.exponent ≥ 0) :
    ∃ d', unsigned? (d.positionalText layout).toList = some d' ∧ d'.value = d.value := by
  have htext : (d.positionalText layout).toList =
      (Nat.toDigits 10 d.digits ++ List.replicate d.exponent.toNat '0') ++
        '.' :: (['0'] ++ []) := by
    unfold Decimal.positionalText
    dsimp only
    rw [if_pos hpoint, if_pos hexponent, String.toList_append, String.toList_append,
      String.toList_ofList, toList_digits]
    rfl
  rw [htext, unsigned?_point, if_pos rfl]
  · refine ⟨_, rfl, ?_⟩
    rw [Nat.ofDigitChars_append, Nat.ofDigitChars_append, Nat.ofDigitChars_ten_toDigits,
      Nat.ofDigitChars_replicate_zero]
    have hlast : ∀ n, Nat.ofDigitChars 10 ['0'] n = 10 * n := fun n => by
      rw [Nat.ofDigitChars_cons]
      rfl
    have hpower : (10 : ℚ) ^ d.exponent = 10 ^ d.exponent.toNat := by
      rw [← zpow_natCast, Int.toNat_of_nonneg hexponent]
    rw [hlast, Decimal.value, Decimal.value, hpower]
    push_cast
    norm_num
    ring
  · intro c hc
    exact (List.mem_append.mp hc).elim isDigit_of_mem_toDigits isDigit_of_mem_zeros
  · exact fun c hc => isDigit_of_mem_zeros (n := 1) hc
  · exact List.append_ne_nil_of_right_ne_nil _ (List.cons_ne_nil _ _)
  · intro c cs h
    cases h

/-- A fraction is written with its digits on both sides of the point. -/
theorem unsigned?_fraction (hexponent : ¬d.exponent ≥ 0) :
    unsigned? (d.positionalText layout).toList = some d := by
  generalize hplaces : (-d.exponent).toNat = places
  obtain ⟨padded, hpadded, hdigit, hvalue, hlength⟩ : ∃ padded : List Char,
      (d.positionalText layout).toList = padded.take (padded.length - places) ++
        '.' :: padded.drop (padded.length - places) ∧
      (∀ c ∈ padded, c.isDigit = true) ∧ Nat.ofDigitChars 10 padded 0 = d.digits ∧
      places < padded.length := by
    unfold Decimal.positionalText
    dsimp only
    rw [if_neg hexponent, hplaces, toList_digits]
    refine ⟨_, String.toList_ofList, ?_⟩
    have hlength : (toString d.digits).length = (Nat.toDigits 10 d.digits).length := by
      rw [← String.length_toList, toList_digits]
    rw [hlength]
    split
    · next hlt =>
      exact ⟨fun c => isDigit_of_mem_toDigits, Nat.ofDigitChars_ten_toDigits, hlt⟩
    · next hge =>
      refine ⟨fun c hc => ?_, ?_, ?_⟩
      · exact (List.mem_append.mp hc).elim isDigit_of_mem_zeros isDigit_of_mem_toDigits
      · rw [Nat.ofDigitChars_append, Nat.ofDigitChars_replicate_zero, Nat.mul_zero,
          Nat.ofDigitChars_ten_toDigits]
      · rw [List.length_append, List.length_replicate]
        omega
  have hpoint := unsigned?_point
    (fun c hc => hdigit c (List.mem_of_mem_take (i := padded.length - places) hc))
    (fun c hc => hdigit c (List.mem_of_mem_drop (i := padded.length - places) hc))
    (by rw [List.take_append_drop]; exact List.ne_nil_of_length_pos (by omega))
    fun c cs (h : [] = c :: cs) => by cases h
  rw [List.append_nil, List.take_append_drop, hvalue, if_pos rfl, List.length_drop] at hpoint
  rw [hpadded, hpoint, Option.map_some]
  congr 2
  omega

/-- One digit before the point, the others behind it, and the power of ten of the first. -/
theorem unsigned?_scientificText (d : Decimal) :
    unsigned? d.scientificText.toList = some d := by
  have hdigit := fun c => isDigit_of_mem_toDigits (n := d.digits) (c := c)
  have hvalue : Nat.ofDigitChars 10 (Nat.toDigits 10 d.digits) 0 = d.digits :=
    Nat.ofDigitChars_ten_toDigits
  have hlength : d.leading = d.exponent + (Nat.toDigits 10 d.digits).length - 1 := by
    rw [Decimal.leading, ← String.length_toList, toList_digits]
  have hne : Nat.toDigits 10 d.digits ≠ [] := Nat.toDigits_ne_nil
  unfold Decimal.scientificText
  rw [toList_digits]
  generalize Nat.toDigits 10 d.digits = digits at hdigit hvalue hlength hne
  rcases digits with _ | ⟨c, _ | ⟨c', rest⟩⟩
  · exact absurd rfl hne
  · have htext : (String.ofList [c] ++ "e" ++ toString d.leading).toList =
        [c] ++ 'e' :: (toString d.leading).toList := by
      rw [String.toList_append, String.toList_append, String.toList_ofList]
      rfl
    dsimp only
    rw [htext, unsigned?_exponent hdigit hne, exponent?_toString, Option.map_some, hvalue, hlength]
    congr 2
    rw [List.length_singleton]
    omega
  · have htext : (String.ofList (c :: '.' :: c' :: rest) ++ "e" ++ toString d.leading).toList =
        [c] ++ '.' :: ((c' :: rest) ++ 'e' :: (toString d.leading).toList) := by
      rw [String.toList_append, String.toList_append, String.toList_ofList]
      simp
    dsimp only
    rw [htext, unsigned?_point]
    · rw [if_neg (List.cons_ne_nil _ _), exponent?_toString, Option.map_some, List.singleton_append,
        hvalue, hlength]
      congr 2
      rw [List.length_cons]
      push_cast
      omega
    · intro x hx
      rw [List.mem_singleton.mp hx]
      exact hdigit c List.mem_cons_self
    · exact fun x hx => hdigit x (List.mem_cons_of_mem _ hx)
    · exact List.cons_ne_nil _ _
    · intro x cs h
      cases h
      rfl

/-- The text of a decimal, whole numbers keeping their point, is read as that decimal. -/
theorem unsigned?_text (hpoint : layout.wholePoint = true) (d : Decimal) :
    ∃ d', unsigned? (d.text layout).toList = some d' ∧ d'.value = d.value := by
  have hpositional : ∃ d', unsigned? (d.positionalText layout).toList = some d' ∧
      d'.value = d.value := by
    by_cases hexponent : d.exponent ≥ 0
    · exact unsigned?_whole hpoint hexponent
    · exact ⟨d, unsigned?_fraction hexponent, rfl⟩
  unfold Decimal.text
  split
  · exact hpositional
  · split
    · exact hpositional
    · exact ⟨d, unsigned?_scientificText d, rfl⟩

/-- A sign is read beside the decimal. -/
theorem read?_text (hpoint : layout.wholePoint = true) (negative : Bool) (d : Decimal) :
    ∃ d', read? ((if negative then "-" else "") ++ d.text layout).toList = some ⟨negative, d'⟩ ∧
      d'.value = d.value := by
  obtain ⟨d', hread, hvalue⟩ := unsigned?_text hpoint d
  refine ⟨d', ?_, hvalue⟩
  rw [String.toList_append]
  cases negative with
  | true =>
    show read? ('-' :: (d.text layout).toList) = _
    rw [read?, if_pos rfl, hread]
    rfl
  | false =>
    rw [if_neg Bool.false_ne_true, String.toList_empty, List.nil_append]
    generalize (d.text layout).toList = cs at hread
    cases cs with
    | nil => cases hread
    | cons c rest =>
      have hminus : c ≠ '-' := by
        rintro rfl
        cases hread
      rw [read?, if_neg hminus, hread]
      rfl

/-! ## Texts of patterns -/

/-- The text of a finite pattern is read as the decimal that is written for it. -/
theorem read?_text_of_lt (hpoint : layout.wholePoint = true)
    (hlt : f.magnitude bits < f.infinity) : ∃ d : Decimal,
    read? (f.text layout bits).toList = some ⟨f.isNegative bits, d⟩ ∧
      d.value = (Decimal.written f (f.magnitude bits)).value := by
  unfold Format.text
  rw [Format.decode_of_lt hlt]
  exact read?_text hpoint (f.isNegative bits) (Decimal.written f (f.magnitude bits))

/-- That decimal is rounded to the pattern. -/
theorem readsAs_of_written (hf : 0 < f.fractionBits) (hlt : f.magnitude bits < f.infinity)
    (hvalue : d.value = (Decimal.written f (f.magnitude bits)).value) :
    ReadsAs ⟨f.isNegative bits, d⟩ f bits := by
  refine ⟨rfl, ?_⟩
  rw [hvalue]
  exact Decimal.nearest_written hf hlt

example : read? "-1.5e-7".toList = some ⟨true, 15, -8⟩ := by decide +kernel

/-- The text of what is no number is no constant. -/
theorem read?_text_of_le (hle : f.infinity ≤ f.magnitude bits) :
    read? (f.text layout bits).toList = none := by
  unfold Format.text Format.decode
  dsimp only
  rcases Nat.lt_or_ge f.infinity (f.magnitude bits) with hnan | hinfinite
  · rw [if_pos hnan]
    dsimp only
    decide
  · rw [if_neg (Nat.not_lt.mpr hinfinite), if_pos (Nat.le_antisymm hinfinite hle)]
    dsimp only
    cases f.isNegative bits <;> decide

end Constant
end Cuda
end TensorGraph
