import Mathlib.Algebra.GroupWithZero.Nat
import Mathlib.Data.List.Infix

/-!
Readers that take a value from the front of a stream, and writers that fit them.

A reader reads a word exactly if it returns the value and leaves whatever
follows the word, and if it fails on every proper beginning of the word.  A
stream written part by part is read exactly by the readers of the parts, one
after the other.
-/

namespace MiniKafka.ExactReaders

section

variable {σ ε ε' α β : Type}

abbrev Reader (ε σ α : Type) := StateT (List σ) (Except ε) α

structure ReadsAs (read : Reader ε σ α) (word : List σ) (a : α) : Prop where
  reads : ∀ rest, read (word ++ rest) = .ok (a, rest)
  fails : ∀ p, p <+: word → p ≠ word → ∃ e, read p = .error e

/-- Whatever is written is read back exactly, as `a`. -/
def Carries (written : Except ε' (List σ)) (read : Reader ε σ α) (a : α) : Prop :=
  ∀ word, written = .ok word → ReadsAs read word a

def inOrder : List (Except ε (List σ)) → Except ε (List σ)
  | [] => .ok []
  | .error e :: _ => .error e
  | .ok word :: parts =>
    match inOrder parts with
    | .error e => .error e
    | .ok words => .ok (word ++ words)

def readMany (read : Reader ε σ α) : Nat → Reader ε σ (List α)
  | 0 => pure []
  | n + 1 => do
    let a ← read
    let as ← readMany read n
    return a :: as

def mapError (g : ε → ε') (read : Reader ε σ α) : Reader ε' σ α :=
  fun word => (read word).mapError g

variable {read : Reader ε σ α} {f : α → Reader ε σ β} {v word : List σ} {a : α}
  {part : Except ε (List σ)} {parts : List (Except ε (List σ))}

theorem bind_ok {rest : List σ} (h : read word = .ok (a, rest)) : (read >>= f) word = f a rest := by
  simp only [bind, StateT.bind, Except.bind, h]

theorem bind_error {e : ε} (h : read word = .error e) : (read >>= f) word = .error e := by
  simp only [bind, StateT.bind, Except.bind, h]

theorem prefix_append_cases {p w : List σ} (h : p <+: v ++ w) (hne : p ≠ v ++ w) :
    (p <+: v ∧ p ≠ v) ∨ ∃ q, p = v ++ q ∧ q <+: w ∧ q ≠ w := by
  rcases List.prefix_or_prefix_of_prefix h (List.prefix_append v w) with hpv | ⟨q, rfl⟩
  · by_cases heq : p = v
    · subst heq
      refine .inr ⟨[], (List.append_nil p).symm, List.nil_prefix, ?_⟩
      rintro rfl
      exact hne (List.append_nil p).symm
    · exact .inl ⟨hpv, heq⟩
  · refine .inr ⟨q, rfl, (List.prefix_append_right_inj v).mp h, ?_⟩
    rintro rfl
    exact hne rfl

theorem ReadsAs.pure (a : α) : ReadsAs (pure a : Reader ε σ α) [] a where
  reads _ := rfl
  fails _ hp hne := absurd (List.prefix_nil.mp hp) hne

theorem ReadsAs.bind {w : List σ} {b : β} (hv : ReadsAs read v a) (hw : ReadsAs (f a) w b) :
    ReadsAs (read >>= f) (v ++ w) b where
  reads rest := by
    rw [List.append_assoc, bind_ok (hv.reads _)]
    exact hw.reads rest
  fails p hp hne := by
    rcases prefix_append_cases hp hne with ⟨hpv, hpne⟩ | ⟨q, rfl, hq, hqne⟩
    · obtain ⟨e, he⟩ := hv.fails p hpv hpne
      exact ⟨e, bind_error he⟩
    · obtain ⟨e, he⟩ := hw.fails q hq hqne
      exact ⟨e, by rw [bind_ok (hv.reads q), he]⟩

theorem ReadsAs.map (h : ReadsAs read word a) (f : α → β) : ReadsAs (f <$> read) word (f a) := by
  rw [map_eq_pure_bind, ← List.append_nil word]
  exact h.bind (.pure (f a))

theorem ReadsAs.mapError (h : ReadsAs read word a) (g : ε → ε') :
    ReadsAs (mapError g read) word a where
  reads rest := by
    rw [ExactReaders.mapError, h.reads rest]
    rfl
  fails p hp hne := by
    obtain ⟨e, he⟩ := h.fails p hp hne
    exact ⟨g e, by rw [ExactReaders.mapError, he]; rfl⟩

/-- How much of a stream of at most `bound` items a reader takes: `size` of them
where there are so many, and otherwise it fails. -/
structure Takes (bound : Nat) (size : List σ → Nat) (read : Reader ε σ α) : Prop where
  takes : ∀ word, word.length ≤ bound → size word ≤ word.length →
    ∃ a, read word = .ok (a, word.drop (size word))
  fails : ∀ word, word.length ≤ bound → word.length < size word → ∃ e, read word = .error e

theorem Takes.pure (bound : Nat) (a : α) :
    Takes bound (fun _ => 0) (pure a : Reader ε σ α) where
  takes _ _ _ := ⟨a, rfl⟩
  fails _ _ h := absurd h (Nat.not_lt_zero _)

theorem Takes.bind {bound : Nat} {m n : List σ → Nat} (hread : Takes bound m read)
    (hf : ∀ a, Takes bound n (f a)) :
    Takes bound (fun word => m word + n (word.drop (m word))) (read >>= f) where
  takes word hbound hle := by
    obtain ⟨a, ha⟩ := hread.takes word hbound (by omega)
    obtain ⟨b, hb⟩ := (hf a).takes (word.drop (m word)) (by rw [List.length_drop]; omega)
      (by rw [List.length_drop]; omega)
    exact ⟨b, by rw [bind_ok ha, hb, List.drop_drop]⟩
  fails word hbound hlt := by
    by_cases hle : m word ≤ word.length
    · obtain ⟨a, ha⟩ := hread.takes word hbound hle
      obtain ⟨e, he⟩ := (hf a).fails (word.drop (m word)) (by rw [List.length_drop]; omega)
        (by rw [List.length_drop]; omega)
      exact ⟨e, by rw [bind_ok ha, he]⟩
    · obtain ⟨e, he⟩ := hread.fails word hbound (by omega)
      exact ⟨e, bind_error he⟩

theorem Takes.whole_iff {bound : Nat} {size : List σ → Nat} (h : Takes bound size read)
    (hbound : word.length ≤ bound) :
    (∃ a, read word = .ok (a, [])) ↔ size word = word.length := by
  constructor
  · rintro ⟨a, ha⟩
    rcases Nat.lt_or_ge word.length (size word) with hlt | hle
    · obtain ⟨e, he⟩ := h.fails word hbound hlt
      rw [he] at ha
      cases ha
    · obtain ⟨b, hb⟩ := h.takes word hbound hle
      have hrest : word.drop (size word) = [] := (Prod.mk.inj (Except.ok.inj (hb.symm.trans ha))).2
      have := List.drop_eq_nil_iff.mp hrest
      omega
  · intro hsize
    obtain ⟨a, ha⟩ := h.takes word hbound hsize.le
    rw [hsize, List.drop_length] at ha
    exact ⟨a, ha⟩

theorem carries_ok (h : ReadsAs read word a) :
    Carries (.ok word : Except ε' (List σ)) read a := by
  rintro _ ⟨⟩
  exact h

theorem carries_error {e : ε'} :
    Carries (.error e : Except ε' (List σ)) read a := by
  intro word h
  cases h

theorem carries_nil (a : α) :
    Carries (inOrder [] : Except ε' (List σ)) (pure a : Reader ε σ α) a :=
  carries_ok (.pure a)

theorem ReadsAs.of_begins {bs later rest : List σ} {b : α} (h : ReadsAs read word a)
    (hbs : bs <+: word ++ later) (hread : read bs = .ok (b, rest)) :
    b = a ∧ bs = word ++ rest := by
  rcases List.prefix_or_prefix_of_prefix hbs (List.prefix_append _ later) with hshort | ⟨q, rfl⟩
  · by_cases hwhole : bs = word
    · subst hwhole
      have hall := h.reads []
      rw [List.append_nil, hread] at hall
      obtain ⟨rfl, rfl⟩ := Prod.mk.inj (Except.ok.inj hall)
      exact ⟨rfl, (List.append_nil _).symm⟩
    · obtain ⟨e, he⟩ := h.fails bs hshort hwhole
      rw [hread] at he
      cases he
  · rw [h.reads q] at hread
    obtain ⟨rfl, rfl⟩ := Prod.mk.inj (Except.ok.inj hread)
    exact ⟨rfl, rfl⟩

theorem inOrder_cons_eq_ok (h : inOrder (part :: parts) = .ok word) :
    ∃ v w, part = .ok v ∧ inOrder parts = .ok w ∧ word = v ++ w := by
  cases part with
  | error e => cases h
  | ok v =>
    rw [inOrder] at h
    cases hparts : inOrder parts with
    | error e => rw [hparts] at h; cases h
    | ok w => rw [hparts] at h; cases h; exact ⟨v, w, rfl, rfl, rfl⟩

theorem inOrder_concat (hparts : inOrder parts = .ok word) (hpart : part = .ok v) :
    inOrder (parts ++ [part]) = .ok (word ++ v) := by
  subst hpart
  induction parts generalizing word with
  | nil =>
    obtain rfl := Except.ok.inj hparts
    exact congrArg Except.ok (List.append_nil v)
  | cons p parts ih =>
    obtain ⟨u, w, rfl, hw, rfl⟩ := inOrder_cons_eq_ok hparts
    rw [List.cons_append, inOrder, ih hw, List.append_assoc]

theorem exists_ok_of_mem (h : inOrder parts = .ok word) (hpart : part ∈ parts) :
    ∃ v, part = .ok v := by
  induction parts generalizing word with
  | nil => cases hpart
  | cons p parts ih =>
    obtain ⟨v, w, hv, hw, -⟩ := inOrder_cons_eq_ok h
    rcases List.mem_cons.mp hpart with rfl | hmem
    · exact ⟨v, hv⟩
    · exact ih hw hmem

def Encodes (written : Except ε (List σ)) (n : Nat) : Prop :=
  ∃ word, written = .ok word ∧ word.length = n

theorem encodes_nil : Encodes (inOrder [] : Except ε (List σ)) 0 := ⟨[], rfl, rfl⟩

theorem encodes_cons {m n : Nat} (hpart : Encodes part m) (hparts : Encodes (inOrder parts) n) :
    Encodes (inOrder (part :: parts)) (m + n) := by
  obtain ⟨v, rfl, rfl⟩ := hpart
  obtain ⟨w, hw, rfl⟩ := hparts
  refine ⟨v ++ w, ?_, List.length_append⟩
  rw [inOrder, hw]

theorem encodes_many {write : α → Except ε (List σ)} {size : α → Nat} {as : List α}
    (h : ∀ a ∈ as, Encodes (write a) (size a)) :
    Encodes (inOrder (as.map write)) (as.map size).sum := by
  induction as with
  | nil => exact encodes_nil
  | cons a as ih =>
    rw [List.map_cons, List.map_cons, List.sum_cons]
    exact encodes_cons (h a List.mem_cons_self) (ih fun b hb => h b (List.mem_cons_of_mem a hb))

theorem carries_cons {part : Except ε' (List σ)} {parts : List (Except ε' (List σ))} {b : β}
    (hpart : Carries part read a) (hparts : Carries (inOrder parts) (f a) b) :
    Carries (inOrder (part :: parts)) (read >>= f) b := by
  intro word hword
  obtain ⟨v, w, hv, hw, rfl⟩ := inOrder_cons_eq_ok hword
  exact (hpart v hv).bind (hparts w hw)

theorem carries_many {write : α → Except ε' (List σ)} {read : Reader ε σ β} {g : α → β}
    {as : List α} (h : ∀ a ∈ as, Carries (write a) read (g a)) :
    Carries (inOrder (as.map write)) (readMany read as.length) (as.map g) := by
  induction as with
  | nil => exact carries_nil []
  | cons a as ih =>
    have htail := ih fun b hb => h b (List.mem_cons_of_mem a hb)
    intro word hword
    obtain ⟨v, w, hv, hw, rfl⟩ := inOrder_cons_eq_ok hword
    rw [← List.append_nil w]
    exact (h a List.mem_cons_self v hv).bind ((htail w hw).bind (.pure _))

end

end MiniKafka.ExactReaders
