import RipExt.Json.Value
import Mathlib.Data.Nat.Digits.Lemmas

/-! The numbers of the C library that pass between a plugin and a document: decimal text,
`strtoll`, `snprintf` into a fixed buffer, and the conversions between cells, `float` and
`double`. -/
namespace RipExt.Json

section Text

def isDigit (b : UInt8) : Bool := 48 ≤ b.toNat && b.toNat ≤ 57

def isSpace (b : UInt8) : Bool := b.toNat = 32 || 9 ≤ b.toNat && b.toNat ≤ 13

/-- The value of a run of digits. -/
def digitsValue (ds : Bytes) : ℕ := ds.foldl (fun n b => 10 * n + (b.toNat - 48)) 0

/-- Whether a number is negative, and its text after the sign. -/
def takeSign (text : Bytes) : Bool × Bytes :=
  match text with
  | [] => (false, [])
  | b :: rest => if b = 45 then (true, rest) else if b = 43 then (false, rest) else (false, text)

/-- The value of `strtoll` in base ten, and whether it reports `ERANGE`. -/
def strtoll (text : Bytes) : ℤ × Bool :=
  let (negative, text) := takeSign (text.dropWhile isSpace)
  let magnitude : ℤ := digitsValue (text.takeWhile isDigit)
  let value := if negative then -magnitude else magnitude
  if value < -2 ^ 63 then (-2 ^ 63, true)
  else if 2 ^ 63 ≤ value then (2 ^ 63 - 1, true)
  else (value, false)

/-- `json_strtoint`, which is `strtoll` wherever `long long` exists. -/
def jsonStrtoint (text : Bytes) : ℤ × Bool := strtoll text

/-- The digits of `n`, most significant first. -/
def decimalNat (n : ℕ) : Bytes :=
  if n = 0 then [48] else (Nat.digits 10 n).reverse.map fun d => UInt8.ofNat (48 + d)

/-- What `%lld` prints. -/
def decimal (v : ℤ) : Bytes :=
  if v < 0 then 45 :: decimalNat v.natAbs else decimalNat v.natAbs

/-- What `snprintf` leaves in a buffer of `size` bytes, before the terminating zero. -/
def snprintf (size : ℕ) (text : Bytes) : Bytes := text.take (size - 1)

end Text

section Scan

inductive Number where
  | integer (value : ℤ)
  | real (value : Double)
  deriving DecidableEq, Repr

/-- The fraction of a number, if there is one: at least one digit follows the point. -/
def lexFraction : Bytes → Option (Bytes × Bytes)
  | [] => some ([], [])
  | b :: rest =>
    if b = 46 then
      if (rest.takeWhile isDigit).isEmpty then none
      else some (b :: rest.takeWhile isDigit, rest.dropWhile isDigit)
    else some ([], b :: rest)

/-- The exponent of a number, if there is one. -/
def lexExponent : Bytes → Option (Bytes × Bytes)
  | [] => some ([], [])
  | b :: rest =>
    if b = 69 ∨ b = 101 then
      let sign := rest.take 1 |>.filter fun c => c = 43 ∨ c = 45
      let rest := rest.drop sign.length
      if (rest.takeWhile isDigit).isEmpty then none
      else some (b :: sign ++ rest.takeWhile isDigit, rest.dropWhile isDigit)
    else some ([], b :: rest)

/-- `lex_scan_number`: the number at the start of a text and what follows it. `strtod` fails
when the value overflows. -/
def lexScanNumber (strtod : Bytes → Option Double) (intAsReal : Bool) (text : Bytes) :
    Option (Number × Bytes) :=
  let sign := text.take 1 |>.filter fun c => c = 45
  let text := text.drop sign.length
  let digits := text.takeWhile isDigit
  let rest := text.dropWhile isDigit
  if digits.isEmpty ∨ digits.head? = some 48 ∧ digits.length ≠ 1 then none
  else if intAsReal = false ∧ rest.head?.all fun c => c ≠ 46 ∧ c ≠ 69 ∧ c ≠ 101 then
    match jsonStrtoint (sign ++ digits) with
    | (_, true) => none
    | (value, false) => some (.integer value, rest)
  else do
    let (fraction, rest) ← lexFraction rest
    let (exponent, rest) ← lexExponent rest
    let value ← strtod (sign ++ digits ++ fraction ++ exponent)
    some (.real value, rest)

end Scan

section Float

/-- Division by `2 ^ k`, rounded to the nearest and to even at a tie. -/
def roundShift (m k : ℕ) : ℕ :=
  let q := m / 2 ^ k
  let r := m % 2 ^ k
  if 2 ^ k < 2 * r ∨ 2 * r = 2 ^ k ∧ q % 2 = 1 then q + 1 else q

/-- The conversion of a `json_int_t` to `double`. -/
def Double.ofInt (v : ℤ) : Double :=
  let k := Nat.log2 v.natAbs - 52
  ⟨v < 0, roundShift v.natAbs k, k⟩

/-- `sp_ctof`: the value of a cell read as a `float`, unless it is infinite or not a number. -/
def spCtof (cell : UInt32) : Option Double :=
  let bits := cell.toNat
  let negative := decide (2 ^ 31 ≤ bits)
  let exponent : ℕ := bits / 2 ^ 23 % 2 ^ 8
  let fraction : ℕ := bits % 2 ^ 23
  if exponent = 255 then none
  else if exponent = 0 then some ⟨negative, fraction, -149⟩
  else some ⟨negative, 2 ^ 23 + fraction, exponent - 150⟩

/-- `sp_ftoc` of a `double` rounded to `float`. -/
def spFtoc (x : Double) : UInt32 :=
  let quantum := max (x.exponent + Nat.log2 x.mantissa - 23) (-149)
  let shift := quantum - x.exponent
  let mantissa :=
    if 0 ≤ shift then roundShift x.mantissa shift.toNat
    else x.mantissa * 2 ^ (-shift).toNat
  let bits :=
    if x.mantissa = 0 then 0 else min ((quantum + 149).toNat * 2 ^ 23 + mantissa) (255 * 2 ^ 23)
  UInt32.ofNat (if x.negative then 2 ^ 31 + bits else bits)

/-- `json_number_value`. -/
def jsonNumberValue (s : Store) (json : Ref) : Option Double := do
  match ← Store.read s json with
  | some (.integer v) => some (.ofInt v)
  | some (.real v) => some v
  | _ => some ⟨false, 0, 0⟩

end Float

section Decimal

theorem isDigit_ofNat {d : ℕ} (hd : d < 10) : isDigit (UInt8.ofNat (48 + d)) = true := by
  simp [isDigit, UInt8.toNat_ofNat']
  omega

theorem isDigit_decimalNat (n : ℕ) : ∀ b ∈ decimalNat n, isDigit b = true := by
  intro b hb
  unfold decimalNat at hb
  split_ifs at hb with hn
  · obtain rfl := List.mem_singleton.mp hb
    rfl
  · obtain ⟨d, hd, rfl⟩ := List.mem_map.mp hb
    exact isDigit_ofNat (Nat.digits_lt_base (by norm_num) (List.mem_reverse.mp hd))

theorem digitsValue_append (ds : Bytes) (b : UInt8) :
    digitsValue (ds ++ [b]) = 10 * digitsValue ds + (b.toNat - 48) := by
  simp [digitsValue]

theorem digitsValue_reverse {ds : List ℕ} (hds : ∀ d ∈ ds, d < 10) :
    digitsValue (ds.reverse.map fun d => UInt8.ofNat (48 + d)) = Nat.ofDigits 10 ds := by
  induction ds with
  | nil => rfl
  | cons d ds ih =>
    have hd : d < 10 := hds d (List.mem_cons_self ..)
    have hmod : (48 + d) % 2 ^ 8 = 48 + d := Nat.mod_eq_of_lt (by omega)
    rw [List.reverse_cons, List.map_append, List.map_singleton, digitsValue_append,
      ih fun e he => hds e (List.mem_cons_of_mem _ he), Nat.ofDigits_cons, UInt8.toNat_ofNat', hmod]
    omega

/-- Reading back what was printed. -/
theorem digitsValue_decimalNat (n : ℕ) : digitsValue (decimalNat n) = n := by
  unfold decimalNat
  split_ifs with hn
  · rw [hn]
    rfl
  · rw [digitsValue_reverse fun d hd => Nat.digits_lt_base (by norm_num) hd, Nat.ofDigits_digits]

theorem decimalNat_length (n : ℕ) (k : ℕ) : (decimalNat n).length ≤ k + 1 ↔ n < 10 ^ (k + 1) := by
  unfold decimalNat
  split_ifs with hn
  · simp [hn]
  · rw [List.length_map, List.length_reverse, Nat.digits_length_le_iff (by norm_num)]

theorem decimalNat_ne_nil (n : ℕ) : decimalNat n ≠ [] := by
  unfold decimalNat
  split_ifs with hn
  · exact List.cons_ne_nil _ _
  · simpa using Nat.digits_ne_nil_iff_ne_zero.mpr hn

theorem takeWhile_decimalNat (n : ℕ) (rest : Bytes) (hrest : ∀ b ∈ rest.head?, isDigit b = false) :
    (decimalNat n ++ rest).takeWhile isDigit = decimalNat n := by
  rw [List.takeWhile_append_of_pos (isDigit_decimalNat n)]
  cases rest with
  | nil => simp
  | cons b bs => simp [hrest b rfl]

theorem isSpace_of_isDigit {b : UInt8} (hb : isDigit b = true) : isSpace b = false := by
  simp only [isDigit, isSpace, Bool.and_eq_true, decide_eq_true_eq, Bool.or_eq_false_iff,
    decide_eq_false_iff_not, Bool.and_eq_false_iff] at hb ⊢
  omega

theorem takeSign_of_isDigit {b : UInt8} (hb : isDigit b = true) (rest : Bytes) :
    takeSign (b :: rest) = (false, b :: rest) := by
  have hminus : b ≠ 45 := by
    rintro rfl
    cases hb
  have hplus : b ≠ 43 := by
    rintro rfl
    cases hb
  simp [takeSign, hminus, hplus]

theorem takeSign_decimal (v : ℤ) :
    takeSign ((decimal v).dropWhile isSpace) = (decide (v < 0), decimalNat v.natAbs) := by
  unfold decimal
  split_ifs with hv
  · rw [List.dropWhile_cons_of_neg (by decide)]
    simp [takeSign, hv]
  · obtain ⟨b, rest, hb⟩ := List.exists_cons_of_ne_nil (decimalNat_ne_nil v.natAbs)
    have hdigit : isDigit b = true := isDigit_decimalNat v.natAbs b (by simp [hb])
    rw [hb, List.dropWhile_cons_of_neg (by simp [isSpace_of_isDigit hdigit]),
      takeSign_of_isDigit hdigit]
    simp [hv]

/-- `strtoll` reads every 64-bit integer back from its decimal text. -/
theorem strtoll_decimal {v : ℤ} (hlo : -2 ^ 63 ≤ v) (hhi : v < 2 ^ 63) :
    strtoll (decimal v) = (v, false) := by
  have hdigits : (decimalNat v.natAbs).takeWhile isDigit = decimalNat v.natAbs := by
    simpa using takeWhile_decimalNat v.natAbs [] (by simp)
  have hvalue : (if decide (v < 0) then -(v.natAbs : ℤ) else (v.natAbs : ℤ)) = v := by
    split_ifs with hv <;> simp only [decide_eq_true_eq] at hv <;> omega
  simp only [strtoll, takeSign_decimal, hdigits, digitsValue_decimalNat, hvalue]
  rw [if_neg (by omega), if_neg (by omega)]

theorem decimalNat_head {n : ℕ} (hhead : (decimalNat n).head? = some 48) :
    (decimalNat n).length = 1 := by
  unfold decimalNat at hhead ⊢
  split_ifs at hhead ⊢ with hn
  · rfl
  · have hne : Nat.digits 10 n ≠ [] := Nat.digits_ne_nil_iff_ne_zero.mpr hn
    have hlt : (Nat.digits 10 n).getLast hne < 10 :=
      Nat.digits_lt_base (by norm_num) (List.getLast_mem hne)
    have hzero : UInt8.ofNat (48 + (Nat.digits 10 n).getLast hne) = 48 := by
      rw [List.head?_map, List.head?_reverse, List.getLast?_eq_getLast_of_ne_nil hne] at hhead
      exact Option.some.inj hhead
    have hnat := congrArg UInt8.toNat hzero
    rw [UInt8.toNat_ofNat', Nat.mod_eq_of_lt (by omega)] at hnat
    have hlast := Nat.getLast_digit_ne_zero 10 hn
    simp at hnat
    omega

theorem takeMinus_decimal (v : ℤ) (rest : Bytes) :
    let sign := (decimal v ++ rest).take 1 |>.filter fun c => c = 45
    sign ++ decimalNat v.natAbs = decimal v ∧
      (decimal v ++ rest).drop sign.length = decimalNat v.natAbs ++ rest := by
  unfold decimal
  split_ifs with hv
  · simp
  · obtain ⟨b, bs, hb⟩ := List.exists_cons_of_ne_nil (decimalNat_ne_nil v.natAbs)
    have hdigit : isDigit b = true := isDigit_decimalNat v.natAbs b (by simp [hb])
    have hminus : b ≠ 45 := by
      rintro rfl
      cases hdigit
    simp [hb, hminus]

/-- The decoder reads every 64-bit integer back from its decimal text, whatever follows that
is not part of a number. -/
theorem lexScanNumber_decimal (strtod : Bytes → Option Double) {v : ℤ} (hlo : -2 ^ 63 ≤ v)
    (hhi : v < 2 ^ 63) {rest : Bytes}
    (hrest : ∀ b ∈ rest.head?, isDigit b = false ∧ b ≠ 46 ∧ b ≠ 69 ∧ b ≠ 101) :
    lexScanNumber strtod false (decimal v ++ rest) = some (.integer v, rest) := by
  obtain ⟨hsign, hdrop⟩ := takeMinus_decimal v rest
  have hdigits := takeWhile_decimalNat v.natAbs rest fun b hb => (hrest b hb).1
  have hafter : (decimalNat v.natAbs ++ rest).dropWhile isDigit = rest := by
    have happend := List.takeWhile_append_dropWhile (p := isDigit) (l := decimalNat v.natAbs ++ rest)
    rw [hdigits] at happend
    exact List.append_cancel_left happend
  have hleading : ¬((decimalNat v.natAbs).isEmpty ∨
      (decimalNat v.natAbs).head? = some 48 ∧ (decimalNat v.natAbs).length ≠ 1) := by
    rintro (hempty | ⟨hhead, hlength⟩)
    · exact decimalNat_ne_nil _ (List.isEmpty_iff.mp hempty)
    · exact hlength (decimalNat_head hhead)
  have hstop : rest.head?.all fun c => c ≠ 46 ∧ c ≠ 69 ∧ c ≠ 101 := by
    simpa [Option.all_eq_true] using fun c hc => (hrest c hc).2
  simp only [lexScanNumber, hdrop, hdigits, hafter, if_neg hleading]
  rw [if_pos ⟨trivial, hstop⟩, hsign, jsonStrtoint, strtoll_decimal hlo hhi]

/-- A buffer of twenty bytes holds every decimal text but the longest negative ones. -/
theorem snprintf_decimal_iff {v : ℤ} (hlo : -2 ^ 63 ≤ v) (hhi : v < 2 ^ 63) :
    snprintf 20 (decimal v) = decimal v ↔ -10 ^ 18 < v := by
  rw [snprintf, List.take_eq_self_iff]
  unfold decimal
  split_ifs with hv
  · rw [List.length_cons, Nat.add_le_add_iff_right (n := 1) (m := _) (k := 18),
      decimalNat_length _ 17]
    omega
  · rw [decimalNat_length _ 18]
    omega

end Decimal

end RipExt.Json
