import MiniKafka.BigEndian

/-!
Loops that decode one item after another from the front of a byte stream.

A loop body either asks for the next item or stops.  Whatever the body does, a
run of the loop is determined by the list of items the stream decodes to, so
facts about a loop are proved over lists of items and never over bytes.
-/

namespace MiniKafka.ReadLoop

open BigEndian

/-- What a loop body does with one item: go on, or leave the loop. -/
inductive Flow (σ : Type) where
  | next (s : σ)
  | stop (s : σ)
  deriving DecidableEq, Repr

def Flow.state {σ : Type} : Flow σ → σ
  | .next s => s
  | .stop s => s

section

variable {α ε σ : Type} (decode : Bytes → Except ε (α × Nat))

def readLoopFuel (body : σ → α → Nat → Flow σ) :
    Nat → Bytes → σ → σ × Option ε
  | 0, _, s => (s, none)
  | fuel + 1, bs, s =>
    match decode bs with
    | .error e => (s, some e)
    | .ok (a, n) =>
      match body s a n with
      | .stop s' => (s', none)
      | .next s' => readLoopFuel body fuel (bs.drop n) s'

/-- Decode items from the front of `bs` until the body stops or decoding
fails.  The second component is the error that ended the loop, if one did. -/
def readLoop (body : σ → α → Nat → Flow σ) (bs : Bytes) (s : σ) : σ × Option ε :=
  readLoopFuel decode body (bs.length + 1) bs s

/-- Every item `decode` accepts occupies at least one byte of the stream. -/
def Progressive : Prop :=
  ∀ bs a n, decode bs = .ok (a, n) → 0 < n ∧ n ≤ bs.length

/-- The outcome of accepting an item depends on the bytes of that item only. -/
def SelfContained : Prop :=
  ∀ bs a n, decode bs = .ok (a, n) → ∀ rest, decode (bs.take n ++ rest) = .ok (a, n)

/-- A stream that is a concatenation of blocks, each decoded as a whole. -/
inductive Blocks : Bytes → List α → Prop where
  | nil : Blocks [] []
  | cons {block rest : Bytes} {a : α} {as : List α} :
      decode block = .ok (a, block.length) → Blocks rest as → Blocks (block ++ rest) (a :: as)

/-- The items at the front of a stream with their sizes, and the error that
stops the decoder after them. -/
def items (bs : Bytes) : List (α × Nat) × Option ε :=
  readLoop decode (fun acc a n => .next (acc ++ [(a, n)])) bs []

end

def runItems {α σ : Type} (body : σ → α → Nat → Flow σ) :
    List (α × Nat) → σ → Flow σ
  | [], s => .next s
  | (a, n) :: rest, s =>
    match body s a n with
    | .stop s' => .stop s'
    | .next s' => runItems body rest s'

theorem runItems_skip {α σ : Type} {body : σ → α → Nat → Flow σ} {xs : List (α × Nat)} {s : σ}
    (h : ∀ x ∈ xs, body s x.1 x.2 = .next s) (ys : List (α × Nat)) :
    runItems body (xs ++ ys) s = runItems body ys s := by
  induction xs with
  | nil => rfl
  | cons x xs ih =>
    rw [List.cons_append, runItems, h x (by simp)]
    exact ih fun y hy => h y (by simp [hy])

theorem runItems_collect {α : Type} (xs : List (α × Nat)) (acc : List α) :
    runItems (fun acc a _ => .next (acc ++ [a])) xs acc = .next (acc ++ xs.map Prod.fst) := by
  induction xs generalizing acc with
  | nil => simp [runItems]
  | cons x xs ih =>
    obtain ⟨a, n⟩ := x
    rw [runItems]
    dsimp only
    rw [ih]
    simp

section

variable {α ε σ : Type} {decode : Bytes → Except ε (α × Nat)}

theorem readLoopFuel_eq (hdecode : Progressive decode)
    (body : σ → α → Nat → Flow σ) (fuel : Nat) (bs : Bytes) (s : σ)
    (hfuel : bs.length < fuel) :
    readLoopFuel decode body fuel bs s = readLoop decode body bs s := by
  induction fuel using Nat.strong_induction_on generalizing bs s with
  | _ fuel ih =>
    obtain ⟨fuel, rfl⟩ : ∃ m, fuel = m + 1 := ⟨fuel - 1, by omega⟩
    rw [readLoop, readLoopFuel, readLoopFuel]
    cases hd : decode bs with
    | error e => rfl
    | ok p =>
      obtain ⟨a, n⟩ := p
      obtain ⟨hn, hle⟩ := hdecode bs a n hd
      have hlen : (bs.drop n).length < bs.length := by
        rw [List.length_drop]
        omega
      dsimp only
      cases body s a n with
      | stop s' => rfl
      | next s' =>
        dsimp only
        rw [ih fuel (by omega) _ _ (by omega)]
        by_cases heq : bs.length = fuel
        · rw [heq, ih fuel (by omega) _ _ (by omega)]
        · rw [ih bs.length (by omega) _ _ hlen]

/-- The loop as the source writes it: decode, run the body, repeat. -/
theorem readLoop_unfold (hdecode : Progressive decode)
    (body : σ → α → Nat → Flow σ) (bs : Bytes) (s : σ) :
    readLoop decode body bs s =
      match decode bs with
      | .error e => (s, some e)
      | .ok (a, n) =>
        match body s a n with
        | .stop s' => (s', none)
        | .next s' => readLoop decode body (bs.drop n) s' := by
  rw [readLoop, readLoopFuel]
  cases hd : decode bs with
  | error e => rfl
  | ok p =>
    obtain ⟨a, n⟩ := p
    obtain ⟨hn, hle⟩ := hdecode bs a n hd
    dsimp only
    cases body s a n with
    | stop s' => rfl
    | next s' =>
      exact readLoopFuel_eq hdecode body _ _ _ (by rw [List.length_drop]; omega)

theorem readLoop_items_acc (hdecode : Progressive decode) (bs : Bytes)
    (acc : List (α × Nat)) :
    readLoop decode (fun acc a n => .next (acc ++ [(a, n)])) bs acc =
      (acc ++ (items decode bs).1, (items decode bs).2) := by
  induction hlen : bs.length using Nat.strong_induction_on generalizing bs acc with
  | _ len ih =>
    rw [items, readLoop_unfold hdecode, readLoop_unfold hdecode _ bs []]
    cases hd : decode bs with
    | error e => simp
    | ok p =>
      obtain ⟨a, n⟩ := p
      obtain ⟨hn, hle⟩ := hdecode bs a n hd
      have hlt : (bs.drop n).length < len := by
        rw [List.length_drop]
        omega
      dsimp only
      rw [ih _ hlt (bs.drop n) _ rfl, ih _ hlt (bs.drop n) _ rfl]
      simp

theorem items_of_error (hdecode : Progressive decode) {bs : Bytes} {e : ε}
    (h : decode bs = .error e) : items decode bs = ([], some e) := by
  rw [items, readLoop_unfold hdecode, h]

theorem items_of_ok (hdecode : Progressive decode) {bs : Bytes} {a : α} {n : Nat}
    (h : decode bs = .ok (a, n)) :
    items decode bs =
      ((a, n) :: (items decode (bs.drop n)).1, (items decode (bs.drop n)).2) := by
  rw [items, readLoop_unfold hdecode, h]
  exact readLoop_items_acc hdecode (bs.drop n) [(a, n)]

/-- A loop is its body run over the decoded items. -/
theorem readLoop_eq_runItems (hdecode : Progressive decode)
    (body : σ → α → Nat → Flow σ) (bs : Bytes) (s : σ) :
    readLoop decode body bs s =
      match runItems body (items decode bs).1 s with
      | .stop s' => (s', none)
      | .next s' => (s', (items decode bs).2) := by
  induction hlen : bs.length using Nat.strong_induction_on generalizing bs s with
  | _ len ih =>
    rw [readLoop_unfold hdecode]
    cases hd : decode bs with
    | error e => rw [items_of_error hdecode hd]; rfl
    | ok p =>
      obtain ⟨a, n⟩ := p
      obtain ⟨hn, hle⟩ := hdecode bs a n hd
      have hlt : (bs.drop n).length < len := by
        rw [List.length_drop]
        omega
      rw [items_of_ok hdecode hd]
      dsimp only [runItems]
      cases body s a n with
      | stop s' => rfl
      | next s' => exact ih _ hlt (bs.drop n) s' rfl

theorem readLoop_fst (hdecode : Progressive decode)
    (body : σ → α → Nat → Flow σ) (bs : Bytes) (s : σ) :
    (readLoop decode body bs s).1 = (runItems body (items decode bs).1 s).state := by
  rw [readLoop_eq_runItems hdecode]
  cases runItems body (items decode bs).1 s with
  | stop s' => rfl
  | next s' => rfl

/-- A stream of encodings decodes to the encoded items, followed by whatever
the rest of the stream holds. -/
theorem items_flatMap_append (hdecode : Progressive decode) (encode : α → Bytes)
    (xs : List α) (rest : Bytes)
    (hround : ∀ x ∈ xs, ∀ tail, decode (encode x ++ tail) = .ok (x, (encode x).length)) :
    items decode (xs.flatMap encode ++ rest) =
      (xs.map (fun x => (x, (encode x).length)) ++ (items decode rest).1,
        (items decode rest).2) := by
  induction xs with
  | nil => rfl
  | cons x xs ih =>
    have hx := hround x (by simp) (xs.flatMap encode ++ rest)
    rw [List.flatMap_cons, List.append_assoc, items_of_ok hdecode hx, List.drop_left,
      ih (fun y hy => hround y (by simp [hy]))]
    simp

theorem items_take_sum (hdecode : Progressive decode) (hself : SelfContained decode)
    {e : ε} (hnil : decode [] = .error e) (bs : Bytes) :
    (items decode (bs.take ((items decode bs).1.map Prod.snd).sum)).1 = (items decode bs).1 := by
  induction hlen : bs.length using Nat.strong_induction_on generalizing bs with
  | _ len ih =>
    cases hd : decode bs with
    | error e' => simp [items_of_error hdecode hd, items_of_error hdecode hnil]
    | ok p =>
      obtain ⟨a, n⟩ := p
      obtain ⟨hn, hle⟩ := hdecode bs a n hd
      have hrest := ih (bs.drop n).length (by rw [List.length_drop]; omega) _ rfl
      have htake (m : Nat) : bs.take (n + m) = bs.take n ++ (bs.drop n).take m := by
        rw [List.take_add]
      rw [items_of_ok hdecode hd]
      simp only [List.map_cons, List.sum_cons]
      rw [htake, items_of_ok hdecode (hself bs a n hd _),
        List.drop_left' (by simp; omega), hrest]

theorem items_of_blocks (hdecode : Progressive decode) (hself : SelfContained decode)
    {body : Bytes} {as : List α} (h : Blocks decode body as) :
    ∃ blocks : List (α × Nat), blocks.map Prod.fst = as ∧
      (blocks.map Prod.snd).sum = body.length ∧
      ∀ rest, items decode (body ++ rest) =
        (blocks ++ (items decode rest).1, (items decode rest).2) := by
  induction h with
  | nil => exact ⟨[], rfl, rfl, fun rest => rfl⟩
  | @cons block body a as hblock hbody ih =>
    obtain ⟨blocks, hitems, hsizes, hrest⟩ := ih
    refine ⟨(a, block.length) :: blocks, by simp [hitems], by simp [hsizes], fun rest => ?_⟩
    have hwhole := hself block a block.length hblock (body ++ rest)
    rw [List.take_length] at hwhole
    rw [List.append_assoc, items_of_ok hdecode hwhole, List.drop_left, hrest]
    rfl

theorem Blocks.length_le (hdecode : Progressive decode) {body : Bytes} {as : List α}
    (h : Blocks decode body as) : as.length ≤ body.length := by
  induction h with
  | nil => exact le_rfl
  | @cons block body a as hblock hbody ih =>
    have hpos := (hdecode block a block.length hblock).1
    rw [List.length_cons, List.length_append]
    omega

theorem exists_blocks (hdecode : Progressive decode) (hself : SelfContained decode) (bs : Bytes) :
    ∃ body rest as e, bs = body ++ rest ∧ Blocks decode body as ∧ decode rest = .error e := by
  induction hlen : bs.length using Nat.strong_induction_on generalizing bs with
  | _ len ih =>
    cases hd : decode bs with
    | error e => exact ⟨[], bs, [], e, rfl, .nil, hd⟩
    | ok p =>
      obtain ⟨a, n⟩ := p
      obtain ⟨hn, hle⟩ := hdecode bs a n hd
      obtain ⟨body, rest, as, e, hbs, hbody, he⟩ :=
        ih (bs.drop n).length (by rw [List.length_drop]; omega) _ rfl
      have hblock : decode (bs.take n) = .ok (a, (bs.take n).length) := by
        rw [List.length_take, Nat.min_eq_left hle, ← List.append_nil (bs.take n)]
        exact hself bs a n hd []
      refine ⟨bs.take n ++ body, rest, a :: as, e, ?_, .cons hblock hbody, he⟩
      rw [List.append_assoc, ← hbs, List.take_append_drop]

theorem rest_eq_nil (hdecode : Progressive decode) (hself : SelfContained decode)
    {body rest : Bytes} {as as' : List α} {e e' : ε} (hnil : decode [] = .error e)
    (hbody : Blocks decode body as) (hrest : decode rest = .error e')
    (hwhole : Blocks decode (body ++ rest) as') : rest = [] := by
  obtain ⟨blocks, -, hsizes, hitems⟩ := items_of_blocks hdecode hself hbody
  obtain ⟨blocks', -, hsizes', hitems'⟩ := items_of_blocks hdecode hself hwhole
  have hsame := (hitems rest).symm.trans (List.append_nil (body ++ rest) ▸ hitems' [])
  rw [items_of_error hdecode hrest, items_of_error hdecode hnil] at hsame
  simp only [List.append_nil, Prod.mk.injEq] at hsame
  rw [← hsame.1, hsizes, List.length_append] at hsizes'
  exact List.length_eq_zero_iff.mp (by omega)

end

end MiniKafka.ReadLoop
