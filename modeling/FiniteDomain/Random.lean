import FiniteDomain.Width

/-! # Random draws

    A source of random draws is a generator with 256 bits of state, or a script:
    a list of numbers that are handed out one by one, reduced to the range asked
    for.  The script makes every sequence of draws available, so what holds for
    all sources holds whatever is drawn.

    The generator is the one known as xoshiro256++.  A draw from a range with `n`
    members multiplies a uniform word by `n` and takes the high half; draws whose
    low half lies beyond the largest multiple of `n` are repeated, which makes all
    members equally likely. -/

namespace FiniteDomain

/-! ### The generator -/

/-- The state of the generator: four words. -/
structure Generator where
  /-- The first word. -/
  s0 : UInt64
  /-- The second word. -/
  s1 : UInt64
  /-- The third word. -/
  s2 : UInt64
  /-- The fourth word. -/
  s3 : UInt64
deriving DecidableEq, Repr, Inhabited

namespace Generator

/-- The word with its bits moved up by `k` places, those at the top coming back at the
    bottom. -/
def rotateLeft (x k : UInt64) : UInt64 := (x <<< k) ||| (x >>> (64 - k))

/-- One step of the sequence that expands a seed: the next state, and a half word made of the
    permuted bits of it. -/
def expandStep (state : UInt64) : UInt64 × UInt32 :=
  let state := state * 6364136223846793005 + 11634580027462260723
  let mixed := (((state >>> 18) ^^^ state) >>> 27).toUInt32
  let turn := (state >>> 59).toUInt32
  (state, (mixed >>> turn) ||| (mixed <<< ((32 - turn) &&& 31)))

/-- The first `count` half words of the sequence that expands a seed. -/
def expand (state : UInt64) : (count : Nat) → List UInt32
  | 0 => []
  | count + 1 => (expandStep state).2 :: expand (expandStep state).1 count

/-- The word of two halves. -/
def word (low high : UInt32) : UInt64 := low.toUInt64 ||| (high.toUInt64 <<< 32)

/-- The generator for a seed. -/
def ofSeed (seed : UInt64) : Generator :=
  match expand seed 8 with
  | [a, b, c, d, e, f, g, h] => ⟨word a b, word c d, word e f, word g h⟩
  | _ => ⟨0, 0, 0, 0⟩

/-- The next word and the generator after it. -/
def next (g : Generator) : UInt64 × Generator :=
  let result := rotateLeft (g.s0 + g.s3) 23 + g.s0
  let t := g.s1 <<< 17
  let s2 := g.s2 ^^^ g.s0
  let s3 := g.s3 ^^^ g.s1
  let s1 := g.s1 ^^^ s2
  let s0 := g.s0 ^^^ s3
  (result, ⟨s0, s1, s2 ^^^ t, rotateLeft s3 45⟩)

/-- The next number of `bits` bits, taken from the top of a word. -/
def nextBits (bits : Nat) (g : Generator) : Nat × Generator :=
  (g.next.1.toNat / (1 <<< (64 - bits)), g.next.2)

/-- How often a draw is repeated at most; the chance of a repetition is less than one half. -/
def maxRepetitions : Nat := 1000000

/-- A draw below `count`, from words of `bits` bits of which those above `zone` are refused. -/
def drawWithin (bits count zone : Nat) : (repetitions : Nat) → Generator → Nat × Generator
  | 0, g => ((g.nextBits bits).1 * count / (1 <<< bits), (g.nextBits bits).2)
  | repetitions + 1, g =>
    let (drawn, g) := g.nextBits bits
    let product := drawn * count
    if product % (1 <<< bits) ≤ zone then (product / (1 <<< bits), g)
    else drawWithin bits count zone repetitions g

/-- A draw below `count`, which is positive and at most `2 ^ bits`. -/
def below (bits count : Nat) (g : Generator) : Nat × Generator :=
  if count = 1 <<< bits then g.nextBits bits
  else
    let zone := count * (1 <<< (bits - 1 - count.log2)) - 1
    drawWithin bits count zone maxRepetitions g

end Generator

/-! ### Sources -/

/-- Where random draws come from. -/
inductive Random where
  /-- From the generator. -/
  | generator (g : Generator)
  /-- From a list; zero once it is used up. -/
  | scripted (draws : List Nat)
deriving DecidableEq, Repr

namespace Random

/-- The source for a seed. -/
def ofSeed (seed : UInt64) : Random := .generator (Generator.ofSeed seed)

/-- The seed that is used unless another is given. -/
def defaultSeed : UInt64 := 42

instance : Inhabited Random := ⟨ofSeed defaultSeed⟩

/-- The next number of a script. -/
def pull : List Nat → Nat × List Nat
  | [] => (0, [])
  | n :: rest => (n, rest)

/-- A draw below a positive number. -/
def below (r : Random) (count : Nat) : Nat × Random :=
  match r with
  | .generator g =>
    let (n, g) := g.below 64 count
    (n, .generator g)
  | .scripted draws =>
    let (n, rest) := pull draws
    (n % count, .scripted rest)

/-- The fault of a draw from an empty range: the generator refuses it, and a script cannot reduce
    its next number to it. -/
def emptyFault : Random → Fault
  | .generator _ => .emptyRange
  | .scripted _ => .divisionByZero

/-- A draw from `first` up to but without `last`; an empty range is a fault. -/
def index (r : Random) (first last : Nat) : Except Fault (Nat × Random) :=
  if first < last then
    let (n, r) := r.below (last - first)
    .ok (first + n, r)
  else .error r.emptyFault

/-- A value from `lower` to `upper`, both included; an empty range is a fault. -/
def integer (r : Random) (lower upper : Int) : Except Fault (Int × Random) :=
  if upper < lower then .error r.emptyFault
  else
    let count := (upper - lower + 1).toNat
    match r with
    | .generator g =>
      let (n, g) := g.below 32 count
      if count = 1 <<< 32 then .ok (Int.bmod n (1 <<< 32), .generator g)
      else .ok (lower + n, .generator g)
    | .scripted draws =>
      let (n, rest) := pull draws
      .ok (lower + (n % count : Nat), .scripted rest)

/-- True with probability `num / den`. -/
def chance (r : Random) (num den : Nat) : Bool × Random :=
  match r with
  | .generator g =>
    if num = den then (true, r)
    else (decide (g.next.1.toNat < num * (1 <<< 64) / den), .generator g.next.2)
  | .scripted draws =>
    let (n, rest) := pull draws
    (n % 2 == 1, .scripted rest)

end Random

end FiniteDomain
