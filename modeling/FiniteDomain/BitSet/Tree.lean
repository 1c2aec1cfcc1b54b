/-! # Trees of indices

    An `IndexTree` is a set of the natural numbers below `2 ^ height`.  A set
    with no member or with all numbers as members is a leaf; any other branches
    into the lower and the upper half of its range, by the topmost binary digit
    of the numbers.  So the size of a tree follows how often membership changes
    along the range, and a search can pass over a long gap, or a long run of
    members, in one step.

    The height is not stored: it is an argument of every operation.  `contains`
    is the view in which the operations are described. -/

namespace FiniteDomain

/-- A set of the numbers below a power of two. -/
inductive IndexTree where
  /-- No number is a member. -/
  | nothing
  /-- Every number is a member. -/
  | everything
  /-- The members of the lower half, and those of the upper half counted from its beginning. -/
  | halves (low high : IndexTree)
deriving DecidableEq, Repr, Inhabited

namespace IndexTree

/-! ### Ranges -/

/-- Members of a tree of the height are below this number. -/
def range (height : Nat) : Nat := 1 <<< height

@[simp] theorem range_zero : range 0 = 1 := rfl

theorem range_succ (height : Nat) : range (height + 1) = range height + range height := by
  simp only [range, Nat.one_shiftLeft, Nat.pow_succ]
  omega

theorem range_pos (height : Nat) : 0 < range height := by
  rw [range, Nat.one_shiftLeft]
  exact Nat.two_pow_pos height

/-! ### Halves -/

/-- The lower half. -/
def low : IndexTree → IndexTree
  | halves low _ => low
  | t => t

/-- The upper half. -/
def high : IndexTree → IndexTree
  | halves _ high => high
  | t => t

/-- The tree with the given halves; two equal leaves make one leaf. -/
def join : (low high : IndexTree) → IndexTree
  | nothing, nothing => nothing
  | everything, everything => everything
  | low, high => halves low high

@[simp] theorem low_join (a b : IndexTree) : (join a b).low = a := by
  cases a <;> cases b <;> rfl

@[simp] theorem high_join (a b : IndexTree) : (join a b).high = b := by
  cases a <;> cases b <;> rfl

/-! ### Membership -/

/-- The number, which is in range, is a member. -/
def contains : (height : Nat) → IndexTree → Nat → Bool
  | _, nothing, _ => false
  | _, everything, _ => true
  | 0, halves _ _, _ => false
  | height + 1, halves low high, i =>
    if i.testBit height then contains height high i else contains height low i

/-- The tree with a number in range made a member or no member. -/
def put : (height : Nat) → IndexTree → (i : Nat) → (member : Bool) → IndexTree
  | 0, _, _, member => if member then everything else nothing
  | height + 1, t, i, member =>
    if i.testBit height then join t.low (put height t.high i member)
    else join (put height t.low i member) t.high

/-- The tree of the first `count` numbers. -/
def firsts : (height count : Nat) → IndexTree
  | 0, count => if count = 0 then nothing else everything
  | height + 1, count =>
    if count ≤ range height then join (firsts height count) nothing
    else join everything (firsts height (count - range height))

/-! ### Searching and counting -/

/-- The least member that is at least `start`. -/
def next? : (height : Nat) → IndexTree → (start : Nat) → Option Nat
  | _, nothing, _ => none
  | height, everything, start => if start < range height then some start else none
  | 0, halves _ _, _ => none
  | height + 1, halves low high, start =>
    match if start < range height then next? height low start else none with
    | some i => some i
    | none => (next? height high (start - range height)).map (· + range height)

/-- The greatest member that is at most `start`. -/
def previous? : (height : Nat) → IndexTree → (start : Nat) → Option Nat
  | _, nothing, _ => none
  | height, everything, start => some (min start (range height - 1))
  | 0, halves _ _, _ => none
  | height + 1, halves low high, start =>
    match if range height ≤ start then previous? height high (start - range height) else none with
    | some i => some (i + range height)
    | none => previous? height low start

/-- The number of members below `limit`. -/
def countBelow : (height : Nat) → IndexTree → (limit : Nat) → Nat
  | _, nothing, _ => 0
  | height, everything, limit => min limit (range height)
  | 0, halves _ _, _ => 0
  | height + 1, halves low high, limit =>
    if limit ≤ range height then countBelow height low limit
    else countBelow height low (range height) + countBelow height high (limit - range height)

/-- The members in ascending order, each increased by `start`. -/
def members : (height : Nat) → IndexTree → (start : Nat) → List Nat
  | _, nothing, _ => []
  | height, everything, start => List.range' start (range height)
  | 0, halves _ _, _ => []
  | height + 1, halves low high, start =>
    members height low start ++ members height high (start + range height)

/-! ### The view -/

@[simp] theorem contains_nothing (height i : Nat) : contains height nothing i = false := by
  cases height <;> rfl

@[simp] theorem contains_everything (height i : Nat) : contains height everything i = true := by
  cases height <;> rfl

/-- The topmost digit tells the half. -/
theorem testBit_eq {height i : Nat} (hi : i < range (height + 1)) :
    i.testBit height = decide (range height ≤ i) := by
  simp only [range, Nat.one_shiftLeft] at hi ⊢
  by_cases h : 2 ^ height ≤ i
  · simp [h, Nat.testBit_of_two_pow_le_and_two_pow_add_one_gt h hi]
  · simp [h, Nat.testBit_lt_two_pow (Nat.lt_of_not_le h)]

/-- Without the topmost digit the digits below are the same. -/
theorem testBit_sub_range {height i b : Nat} (hi : range height ≤ i) (hb : b < height) :
    (i - range height).testBit b = i.testBit b := by
  simp only [range, Nat.one_shiftLeft] at hi ⊢
  rw [← Nat.testBit_two_pow_add_gt hb (i - 2 ^ height), Nat.add_sub_cancel' hi]

/-- Only the digits below the height matter. -/
theorem contains_congr {height : Nat} {t : IndexTree} {i j : Nat}
    (h : ∀ b < height, i.testBit b = j.testBit b) :
    contains height t i = contains height t j := by
  induction height generalizing t with
  | zero => cases t <;> rfl
  | succ height ih =>
    cases t with
    | nothing => rfl
    | everything => rfl
    | halves low high =>
      have hbelow : ∀ b < height, i.testBit b = j.testBit b := fun b hb => h b (by omega)
      simp only [contains, h height (by omega), ih hbelow]

/-- Only the digits below the height matter. -/
theorem put_congr {height : Nat} {t : IndexTree} {i j : Nat} {member : Bool}
    (h : ∀ b < height, i.testBit b = j.testBit b) :
    put height t i member = put height t j member := by
  induction height generalizing t with
  | zero => rfl
  | succ height ih =>
    have hbelow : ∀ b < height, i.testBit b = j.testBit b := fun b hb => h b (by omega)
    simp only [put, h height (by omega), ih hbelow]

theorem contains_succ {height : Nat} (t : IndexTree) {i : Nat} (hi : i < range (height + 1)) :
    contains (height + 1) t i
      = if i < range height then contains height t.low i
        else contains height t.high (i - range height) := by
  have hbit := testBit_eq hi
  by_cases h : i < range height
  · have hnot : ¬ range height ≤ i := by omega
    cases t <;> simp [contains, low, hbit, h, hnot]
  · have hle : range height ≤ i := by omega
    have hcongr : contains height t.high (i - range height) = contains height t.high i :=
      contains_congr fun b hb => testBit_sub_range hle hb
    rw [if_neg h, hcongr]
    cases t <;> simp [contains, high, hbit, hle]

theorem put_succ {height : Nat} (t : IndexTree) {i : Nat} (member : Bool)
    (hi : i < range (height + 1)) :
    put (height + 1) t i member
      = if i < range height then join (put height t.low i member) t.high
        else join t.low (put height t.high (i - range height) member) := by
  by_cases h : i < range height
  · have hnot : ¬ range height ≤ i := by omega
    simp [put, testBit_eq hi, h, hnot]
  · have hle : range height ≤ i := by omega
    have hcongr : put height t.high (i - range height) member = put height t.high i member :=
      put_congr fun b hb => testBit_sub_range hle hb
    simp [put, testBit_eq hi, h, hle, hcongr]

theorem contains_put {height : Nat} {t : IndexTree} {i j : Nat} {member : Bool}
    (hi : i < range height) (hj : j < range height) :
    contains height (put height t i member) j
      = if j = i then member else contains height t j := by
  induction height generalizing t i j with
  | zero =>
    have hij : j = i := by simp only [range_zero] at hi hj; omega
    cases member <;> simp [put, hij]
  | succ height ih =>
    rw [put_succ t member hi, contains_succ _ hj, contains_succ t hj]
    rw [range_succ] at hi hj
    by_cases hlow : i < range height <;> by_cases hjlow : j < range height
    · simp only [hlow, hjlow, if_true, low_join, ih hlow hjlow]
    · have hne : j ≠ i := by omega
      simp only [hlow, hjlow, if_true, if_false, high_join, hne]
    · have hne : j ≠ i := by omega
      simp only [hlow, hjlow, if_true, if_false, low_join, hne]
    · have hshift : j - range height = i - range height ↔ j = i := by omega
      simp only [hlow, hjlow, if_false, high_join, hshift,
        ih (show i - range height < range height by omega)
          (show j - range height < range height by omega)]

theorem contains_firsts {height count i : Nat} (hi : i < range height) :
    contains height (firsts height count) i = decide (i < count) := by
  induction height generalizing count i with
  | zero =>
    obtain rfl : i = 0 := by simpa using hi
    by_cases hcount : count = 0
    · simp [firsts, hcount]
    · simp [firsts, hcount, Nat.pos_of_ne_zero hcount]
  | succ height ih =>
    rw [contains_succ _ hi, firsts]
    rw [range_succ] at hi
    -- the first indices fill the low half before they enter the high one
    by_cases hcount : count ≤ range height <;> by_cases hlow : i < range height
    · simp only [hcount, if_true, hlow, low_join, ih hlow]
    · have hnot : ¬ i < count := by omega
      simp only [hcount, if_true, hlow, if_false, high_join, contains_nothing, hnot,
        decide_false]
    · have hlt : i < count := by omega
      simp only [hcount, if_false, hlow, if_true, low_join, contains_everything, hlt,
        decide_true]
    · have hshift : i - range height < count - range height ↔ i < count := by omega
      simp only [hcount, if_false, hlow, high_join,
        ih (show i - range height < range height by omega), hshift]

theorem mem_members {height : Nat} {t : IndexTree} {start i : Nat} :
    i ∈ members height t start
      ↔ start ≤ i ∧ i - start < range height ∧ contains height t (i - start) = true := by
  induction height generalizing t start with
  | zero =>
    cases t with
    | nothing => simp [members, contains]
    | everything =>
      simp [members, contains]
      omega
    | halves low high => simp [members, contains]
  | succ height ih =>
    have hpos := range_pos height
    cases t with
    | nothing => simp [members]
    | everything =>
      simp only [members, List.mem_range'_1, contains_everything, and_true]
      omega
    | halves low high =>
      -- the right half is listed from its own start
      have hsub : i - (start + range height) = i - start - range height := by omega
      simp only [members, List.mem_append, ih, hsub]
      constructor
      · rintro (⟨h₁, h₂, h₃⟩ | ⟨h₁, h₂, h₃⟩)
        · have hi : i - start < range (height + 1) := by rw [range_succ]; omega
          refine ⟨h₁, hi, ?_⟩
          simpa [contains_succ _ hi, h₂, IndexTree.low] using h₃
        · have hi : i - start < range (height + 1) := by rw [range_succ]; omega
          have hnot : ¬ i - start < range height := by omega
          refine ⟨by omega, hi, ?_⟩
          simpa [contains_succ _ hi, hnot, IndexTree.high] using h₃
      · rintro ⟨h₁, hi, h₃⟩
        rw [contains_succ _ hi] at h₃
        rw [range_succ] at hi
        by_cases hlow : i - start < range height
        · exact Or.inl ⟨h₁, hlow, by simpa [hlow, IndexTree.low] using h₃⟩
        · exact Or.inr ⟨by omega, by omega, by simpa [hlow, IndexTree.high] using h₃⟩

end IndexTree

end FiniteDomain
