import Mathlib.Algebra.Ring.Int.Defs
import Mathlib.Data.List.DropRight

/-!
Text as bytes: fields, trimmed lines and decimal numerals.

Only the white space of ASCII counts as such.
-/

namespace MiniKafka.PlainText

/-- `unicode.IsSpace` for ASCII.  `strings.TrimSpace` and `strings.Fields` also take other
spaces, such as U+0085 and U+00A0. -/
def space (b : UInt8) : Bool := (decide (9 ≤ b) && decide (b ≤ 13)) || decide (b = 32)

def trim (bs : List UInt8) : List UInt8 := (bs.dropWhile space).rdropWhile space

def fields (bs : List UInt8) : List (List UInt8) :=
  (bs.splitOnP space).filter fun word => !word.isEmpty

def digit (b : UInt8) : Bool := decide (48 ≤ b) && decide (b ≤ 57)

def value (bs : List UInt8) : Nat := bs.foldl (fun n b => 10 * n + (b.toNat - 48)) 0

def natural (bs : List UInt8) : Option Nat :=
  if bs = [] then none else if bs.all digit then some (value bs) else none

def bounded (w : Nat) (n : Int) : Option Int :=
  if -2 ^ (w - 1) ≤ n ∧ n < 2 ^ (w - 1) then some n else none

def integer (w : Nat) : List UInt8 → Option Int
  | [] => none
  | b :: bs =>
    if b = 43 then (natural bs).bind fun n => bounded w n
    else if b = 45 then (natural bs).bind fun n => bounded w (-n)
    else (natural (b :: bs)).bind fun n => bounded w n

def numeral (n : Nat) : List UInt8 := (Nat.toDigits 10 n).map fun c => UInt8.ofNat c.toNat

def signed : Int → List UInt8
  | .ofNat n => numeral n
  | .negSucc n => 45 :: numeral (n + 1)

section Numerals

theorem toNat_of_isDigit {c : Char} (h : c.isDigit = true) :
    (UInt8.ofNat c.toNat).toNat = c.toNat ∧ 48 ≤ c.toNat ∧ c.toNat ≤ 57 := by
  rw [Char.isDigit_iff_toNat] at h
  have h0 : '0'.toNat = 48 := rfl
  have h9 : '9'.toNat = 57 := rfl
  rw [UInt8.toNat_ofNat', Nat.mod_eq_of_lt (by omega)]
  omega

theorem isDigit_of_mem {n : Nat} {c : Char} (h : c ∈ Nat.toDigits 10 n) : c.isDigit = true :=
  Nat.isDigit_of_mem_toDigits (by decide) le_rfl h

theorem digit_iff {b : UInt8} : digit b = true ↔ 48 ≤ b.toNat ∧ b.toNat ≤ 57 := by
  simp [digit, UInt8.le_iff_toNat_le]

theorem digit_of_mem_numeral {n : Nat} {b : UInt8} (h : b ∈ numeral n) : digit b = true := by
  obtain ⟨c, hc, rfl⟩ := List.mem_map.mp h
  obtain ⟨hvalue, hlow, hhigh⟩ := toNat_of_isDigit (isDigit_of_mem hc)
  rw [digit_iff, hvalue]
  exact ⟨hlow, hhigh⟩

theorem numeral_ne_nil (n : Nat) : numeral n ≠ [] := by
  rw [numeral, ne_eq, List.map_eq_nil_iff]
  exact Nat.toDigits_ne_nil

@[simp] theorem value_numeral (n : Nat) : value (numeral n) = n := by
  have hfold (cs : List Char) (hcs : ∀ c ∈ cs, c.isDigit = true) (k : Nat) :
      (cs.map fun c => UInt8.ofNat c.toNat).foldl (fun n b => 10 * n + (b.toNat - 48)) k =
        Nat.ofDigitChars 10 cs k := by
    induction cs generalizing k with
    | nil => simp
    | cons c cs ih =>
      rw [List.map_cons, List.foldl_cons, (toNat_of_isDigit (hcs c List.mem_cons_self)).1,
        ih fun d hd => hcs d (List.mem_cons_of_mem c hd), Nat.ofDigitChars_cons]
      rfl
  rw [value, numeral, hfold _ fun c hc => isDigit_of_mem hc]
  exact Nat.ofDigitChars_ten_toDigits

theorem natural_numeral (n : Nat) : natural (numeral n) = some n := by
  have hall : (numeral n).all digit = true :=
    List.all_eq_true.mpr fun b hb => digit_of_mem_numeral hb
  rw [natural, if_neg (numeral_ne_nil n), if_pos hall, value_numeral]

theorem integer_of_digits {bs : List UInt8} {n w : Nat} (h : natural bs = some n) :
    integer w bs = bounded w n := by
  cases bs with
  | nil => cases h
  | cons b bs =>
    have hdigit : digit b = true := by
      rw [natural, if_neg (List.cons_ne_nil b bs)] at h
      split at h
      · rename_i hall
        exact (List.all_eq_true.mp hall) b List.mem_cons_self
      · cases h
    have hplus : b ≠ 43 := by
      rintro rfl
      cases hdigit
    have hminus : b ≠ 45 := by
      rintro rfl
      cases hdigit
    rw [integer, if_neg hplus, if_neg hminus, h, Option.bind_some]

theorem integer_signed {w : Nat} {n : Int} (hlow : -2 ^ (w - 1) ≤ n) (hhigh : n < 2 ^ (w - 1)) :
    integer w (signed n) = some n := by
  have hbounded : bounded w n = some n := if_pos ⟨hlow, hhigh⟩
  cases n with
  | ofNat n =>
    rw [signed, integer_of_digits (natural_numeral n)]
    exact hbounded
  | negSucc n =>
    rw [signed, integer, if_neg (by decide), if_pos rfl, natural_numeral, Option.bind_some]
    exact hbounded

theorem not_space_of_digit {b : UInt8} (h : digit b = true) : space b = false := by
  rw [digit_iff] at h
  simp only [space, Bool.or_eq_false_iff, Bool.and_eq_false_iff, decide_eq_false_iff_not,
    UInt8.le_iff_toNat_le, ← UInt8.toNat_inj]
  exact ⟨.inr (by simp; omega), by simp; omega⟩

theorem not_space_signed {n : Int} {b : UInt8} (h : b ∈ signed n) : space b = false := by
  cases n with
  | ofNat n => exact not_space_of_digit (digit_of_mem_numeral h)
  | negSucc n =>
    rcases List.mem_cons.mp h with rfl | hb
    · decide
    · exact not_space_of_digit (digit_of_mem_numeral hb)

theorem notMem_signed {b : UInt8} (h : space b = true) (n : Int) : b ∉ signed n := by
  intro hmem
  rw [not_space_signed hmem] at h
  cases h

theorem signed_injective : Function.Injective signed := by
  have hnumeral {n m : Nat} (h : numeral n = numeral m) : n = m := by
    rw [← value_numeral n, h, value_numeral]
  have hsign (n m : Nat) : 45 :: numeral (n + 1) ≠ numeral m := by
    intro h
    have hdigit := digit_of_mem_numeral (h ▸ List.mem_cons_self : 45 ∈ numeral m)
    cases hdigit
  rintro (n | n) (m | m) h
  · rw [hnumeral h]
  · exact absurd h.symm (hsign m n)
  · exact absurd h (hsign n m)
  · rw [Nat.succ.inj (hnumeral (List.cons.inj h).2)]

theorem signed_ne_nil (n : Int) : signed n ≠ [] := by
  cases n with
  | ofNat n => exact numeral_ne_nil n
  | negSucc n => exact List.cons_ne_nil _ _

end Numerals

section Words

variable {word rest : List UInt8}

theorem fields_singleton (hword : ∀ b ∈ word, space b = false) (hne : word ≠ []) :
    fields word = [word] := by
  rw [fields, List.splitOnP_eq_singleton hword, List.filter_cons_of_pos (by simpa using hne),
    List.filter_nil]

theorem fields_cons (hword : ∀ b ∈ word, space b = false) (hne : word ≠ []) (rest : List UInt8) :
    fields (word ++ 32 :: rest) = word :: fields rest := by
  rw [fields, List.splitOnP_append_cons_of_forall_mem hword 32 (by decide),
    List.filter_cons_of_pos (by simpa using hne)]
  rfl

theorem trim_eq_self {bs : List UInt8} (hhead : ∀ b, bs.head? = some b → space b = false)
    (hlast : ∀ b, bs.getLast? = some b → space b = false) : trim bs = bs := by
  have hdrop : bs.dropWhile space = bs := by
    cases bs with
    | nil => rfl
    | cons b bs => rw [List.dropWhile_cons_of_neg (by simp [hhead b rfl])]
  rw [trim, hdrop, List.rdropWhile_eq_self_iff]
  intro hne
  rw [hlast _ (List.getLast?_eq_some_getLast hne)]
  exact Bool.false_ne_true

theorem trim_concat {bs : List UInt8} {b : UInt8} (hne : bs ≠ [])
    (hhead : ∀ c, bs.head? = some c → space c = false)
    (hlast : ∀ c, bs.getLast? = some c → space c = false) (hb : space b = true) :
    trim (bs ++ [b]) = bs := by
  have hself := trim_eq_self hhead hlast
  obtain ⟨c, rest, rfl⟩ := List.exists_cons_of_ne_nil hne
  have hc : ¬ space c = true := by simp [hhead c rfl]
  rw [trim, List.dropWhile_cons_of_neg hc] at hself
  rw [trim, List.cons_append, List.dropWhile_cons_of_neg hc, ← List.cons_append,
    List.rdropWhile_concat_pos _ _ _ hb, hself]

theorem first_separator_inj {α : Type} {c : α} {xs ys zs ws : List α} (hxs : c ∉ xs) (hzs : c ∉ zs)
    (h : xs ++ c :: ys = zs ++ c :: ws) : xs = zs ∧ ys = ws := by
  induction xs generalizing zs with
  | nil =>
    cases zs with
    | nil => exact ⟨rfl, (List.cons.inj h).2⟩
    | cons z zs =>
      rw [(List.cons.inj h).1] at hzs
      exact absurd List.mem_cons_self hzs
  | cons x xs ih =>
    cases zs with
    | nil =>
      rw [(List.cons.inj h).1] at hxs
      exact absurd List.mem_cons_self hxs
    | cons z zs =>
      obtain ⟨rfl, hrest⟩ := List.cons.inj h
      obtain ⟨rfl, rfl⟩ := ih (fun hmem => hxs (List.mem_cons_of_mem x hmem))
        (fun hmem => hzs (List.mem_cons_of_mem x hmem)) hrest
      exact ⟨rfl, rfl⟩

theorem intercalate_concat {α : Type} (x : α) {lines : List (List α)} (hne : lines ≠ []) :
    [x].intercalate lines ++ [x] = [x].intercalate (lines ++ [[]]) := by
  induction lines with
  | nil => exact absurd rfl hne
  | cons line lines ih =>
    cases lines with
    | nil => simp
    | cons next lines =>
      have hrest := ih (List.cons_ne_nil next lines)
      have hmore : next :: lines ++ [[]] ≠ [] := by simp
      rw [List.intercalate_cons_of_ne_nil (List.cons_ne_nil next lines), List.append_assoc,
        hrest, List.cons_append (a := line), List.intercalate_cons_of_ne_nil hmore]

end Words

end MiniKafka.PlainText
