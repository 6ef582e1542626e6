/-!
# Deflate data

Compressed data is a stream of bits in blocks. A block is stored, or coded with the fixed codes, or
with codes that it carries. A code is canonical: it is given by the lengths of its words, words of
one length in the order of their symbols. `inflate` gives what the data stand for; where they end
too early it gives what they have shown so far.
-/

namespace Bindery.Zip

/-- The bits of bytes, the lowest of each byte first. -/
def bits (bytes : List UInt8) : List Bool :=
  bytes.flatMap fun b => (List.range 8).map fun i => b.toNat.testBit i

namespace Inflate

/-- Why data cannot be read further. -/
inductive Trouble where
  | truncated
  | corrupt
  deriving DecidableEq, Repr

/-- A number of so many bits, the lowest first, and the bits after it. -/
def number : Nat → List Bool → Except Trouble (Nat × List Bool)
  | 0, bs => .ok (0, bs)
  | _ + 1, [] => .error .truncated
  | k + 1, b :: bs =>
    match number k bs with
    | .ok (n, rest) => .ok (b.toNat + 2 * n, rest)
    | .error t => .error t

theorem length_of_number {k n : Nat} {bs rest : List Bool} (h : number k bs = .ok (n, rest)) :
    rest.length + k = bs.length := by
  induction k generalizing n bs rest with
  | zero => simp only [number, Except.ok.injEq, Prod.mk.injEq] at h; simp [h.2]
  | succ k ih =>
    cases bs with
    | nil => simp [number] at h
    | cons b bs =>
      simp only [number] at h
      split at h
      · rename_i n' rest' h'
        simp only [Except.ok.injEq, Prod.mk.injEq] at h
        have := ih h'
        rw [← h.2]
        simp only [List.length_cons]
        omega
      · simp at h

/-! ## Codes -/

/-- A code: the symbols with words of one bit, of two bits, and so on. -/
abbrev Code := List (List Nat)

/-- The longest word of a code. -/
def longestWord : Nat := 15

/-- The code whose words have these lengths; a symbol of length zero has none. -/
def codeOf (lengths : List Nat) : Code :=
  (List.range longestWord).map fun k =>
    (lengths.zipIdx.filter fun e => e.1 = k + 1).map (·.2)

/-- How much of the words of the longest length the code uses up. -/
def weight (lengths : List Nat) : Nat :=
  (lengths.map fun l => if l = 0 then 0 else Nat.pow 2 (longestWord - l)).foldr (· + ·) 0

/-- A code of more than one word has to leave no bits unused. -/
def code? (lengths : List Nat) : Except Trouble Code :=
  if weight lengths = Nat.pow 2 longestWord ∨ (lengths.filter (· ≠ 0)).length ≤ 1 then
    .ok (codeOf lengths)
  else .error .corrupt

/-- The symbol of the word that the bits start with. The number read so far is counted from the
first word of its length. -/
def symbol : Code → Nat → List Bool → Except Trouble (Nat × List Bool)
  | _, _, [] => .error .truncated
  | [], _, _ => .error .corrupt
  | symbols :: longer, n, b :: bs =>
    let n := 2 * n + b.toNat
    match symbols[n]? with
    | some s => .ok (s, bs)
    | none => symbol longer (n - symbols.length) bs

theorem length_of_symbol {c : Code} {n s : Nat} {bs rest : List Bool}
    (h : symbol c n bs = .ok (s, rest)) : rest.length < bs.length := by
  induction c generalizing n bs with
  | nil => cases bs <;> simp [symbol] at h
  | cons symbols longer ih =>
    cases bs with
    | nil => simp [symbol] at h
    | cons b bs =>
      simp only [symbol] at h
      split at h
      · simp only [Except.ok.injEq, Prod.mk.injEq] at h
        simp [h.2]
      · have := ih h
        simp only [List.length_cons]
        omega

/-! ## Codes of a block -/

structure Codes where
  literals : Code
  distances : Code

def fixedCodes : Codes where
  literals := codeOf (List.replicate 144 8 ++ List.replicate 112 9 ++ List.replicate 24 7
    ++ List.replicate 8 8)
  distances := codeOf (List.replicate 32 5)

/-- The order in which the lengths of the code for lengths are written. -/
def lengthOrder : List Nat := [16, 17, 18, 0, 8, 7, 9, 6, 10, 5, 11, 4, 12, 3, 13, 2, 14, 1, 15]

/-- So many lengths of three bits each. -/
def shortLengths : Nat → List Bool → Except Trouble (List Nat × List Bool)
  | 0, bs => .ok ([], bs)
  | k + 1, bs => do
    let (n, bs) ← number 3 bs
    let (r, bs) ← shortLengths k bs
    return (n :: r, bs)

/-- The lengths for the symbols in order from lengths in the order in which they are written. -/
def arrange (lengths : List Nat) : List Nat :=
  (List.range 19).map fun s => ((lengthOrder.zip lengths).lookup s).getD 0

/-- What a symbol of the code for lengths repeats, with how many extra bits and how often at
least. -/
def repetition? (soFar : List Nat) : Nat → Except Trouble (Nat × Nat × Nat)
  | 16 =>
    match soFar.getLast? with
    | some l => .ok (l, 2, 3)
    | none => .error .corrupt
  | 17 => .ok (0, 3, 3)
  | 18 => .ok (0, 7, 11)
  | l => .ok (l, 0, 1)

/-- Reads coded lengths until there are so many. -/
def codedLengths (c : Code) (count : Nat) (soFar : List Nat) (bs : List Bool) :
    Except Trouble (List Nat × List Bool) :=
  if soFar.length = count then .ok (soFar, bs)
  else if count < soFar.length then .error .corrupt
  else
    match _hs : symbol c 0 bs with
    | .error t => .error t
    | .ok (s, rest) =>
      match repetition? soFar s with
      | .error t => .error t
      | .ok (l, extra, least) =>
        match _hn : number extra rest with
        | .error t => .error t
        | .ok (n, rest') => codedLengths c count (soFar ++ List.replicate (least + n) l) rest'
termination_by bs.length
decreasing_by
  have := length_of_symbol _hs
  have := length_of_number _hn
  omega

/-- The codes that a block carries. -/
def ownCodes (bs : List Bool) : Except Trouble (Codes × List Bool) := do
  let (literals, bs) ← number 5 bs
  let (distances, bs) ← number 5 bs
  let (short, bs) ← number 4 bs
  if 286 < literals + 257 ∨ 30 < distances + 1 then throw .corrupt
  let (lengths, bs) ← shortLengths (short + 4) bs
  let (all, bs) ← codedLengths (← code? (arrange lengths)) (literals + 257 + distances + 1) [] bs
  return (⟨← code? (all.take (literals + 257)), ← code? (all.drop (literals + 257))⟩, bs)

/-! ## Blocks -/

/-- What a symbol stands for: its least value and how many extra bits add to it. -/
abbrev Range := Nat × Nat

/-- The lengths of copies, for the symbols from 257 on. -/
def copyLengths : List Range :=
  [(3, 0), (4, 0), (5, 0), (6, 0), (7, 0), (8, 0), (9, 0), (10, 0), (11, 1), (13, 1), (15, 1),
    (17, 1), (19, 2), (23, 2), (27, 2), (31, 2), (35, 3), (43, 3), (51, 3), (59, 3), (67, 4),
    (83, 4), (99, 4), (115, 4), (131, 5), (163, 5), (195, 5), (227, 5), (258, 0)]

def copyDistances : List Range :=
  [(1, 0), (2, 0), (3, 0), (4, 0), (5, 1), (7, 1), (9, 2), (13, 2), (17, 3), (25, 3), (33, 4),
    (49, 4), (65, 5), (97, 5), (129, 6), (193, 6), (257, 7), (385, 7), (513, 8), (769, 8),
    (1025, 9), (1537, 9), (2049, 10), (3073, 10), (4097, 11), (6145, 11), (8193, 12), (12289, 12),
    (16385, 13), (24577, 13)]

/-- The value that a symbol and its extra bits give. -/
def value (ranges : List Range) (s : Nat) (bs : List Bool) :
    Except Trouble (Nat × List Bool) := do
  match ranges[s]? with
  | some (least, extra) =>
    let (n, bs) ← number extra bs
    return (least + n, bs)
  | none => throw .corrupt

theorem length_of_value {ranges : List Range} {s n : Nat} {bs rest : List Bool}
    (h : value ranges s bs = .ok (n, rest)) : rest.length ≤ bs.length := by
  unfold value at h
  split at h
  · rename_i least extra _
    cases hn : number extra bs with
    | error t => simp [hn, bind, Except.bind] at h
    | ok v =>
      obtain ⟨m, bs'⟩ := v
      simp only [hn, bind, Except.bind, pure, Except.pure, Except.ok.injEq, Prod.mk.injEq] at h
      have := length_of_number hn
      rw [← h.2]
      omega
  · simp [throw, throwThe, MonadExceptOf.throw] at h

/-- Appends a copy of so many bytes from so far back; it may reach into itself. -/
def copy : Nat → Nat → Array UInt8 → Array UInt8
  | 0, _, out => out
  | k + 1, back, out => copy k back (out.push (out.getD (out.size - back) 0))

/-- A copy's length and distance. -/
def copyOf (codes : Codes) (s : Nat) (bs : List Bool) :
    Except Trouble (Nat × Nat × List Bool) := do
  let (length, bs) ← value copyLengths (s - 257) bs
  let (d, bs) ← symbol codes.distances 0 bs
  let (back, bs) ← value copyDistances d bs
  return (length, back, bs)

theorem length_of_copyOf {codes : Codes} {s length back : Nat} {bs rest : List Bool}
    (h : copyOf codes s bs = .ok (length, back, rest)) : rest.length ≤ bs.length := by
  unfold copyOf at h
  cases h1 : value copyLengths (s - 257) bs with
  | error t => simp [h1, bind, Except.bind] at h
  | ok v1 =>
    obtain ⟨n, bs1⟩ := v1
    cases h2 : symbol codes.distances 0 bs1 with
    | error t => simp [h1, h2, bind, Except.bind] at h
    | ok v2 =>
      obtain ⟨d, bs2⟩ := v2
      cases h3 : value copyDistances d bs2 with
      | error t => simp [h1, h2, h3, bind, Except.bind] at h
      | ok v3 =>
        obtain ⟨m, bs3⟩ := v3
        simp only [h1, h2, h3, bind, Except.bind, pure, Except.pure, Except.ok.injEq,
          Prod.mk.injEq] at h
        have := length_of_value h1
        have := length_of_symbol h2
        have := length_of_value h3
        rw [← h.2.2]
        omega

/-- What a block of coded data is made of. -/
inductive Item where
  | byte (b : UInt8)
  | copy (length back : Nat)
  | stop

/-- The next item of coded data. -/
def item (codes : Codes) (bs : List Bool) : Except Trouble (Item × List Bool) :=
  match symbol codes.literals 0 bs with
  | .error t => .error t
  | .ok (s, rest) =>
    if s < 256 then .ok (.byte (.ofNat s), rest)
    else if s = 256 then .ok (.stop, rest)
    else (copyOf codes s rest).map fun (length, back, rest) => (.copy length back, rest)

theorem length_of_item {codes : Codes} {i : Item} {bs rest : List Bool}
    (h : item codes bs = .ok (i, rest)) : rest.length < bs.length := by
  unfold item at h
  split at h
  · simp at h
  · rename_i s rest' hs
    have hlt := length_of_symbol hs
    split at h
    · simp only [Except.ok.injEq, Prod.mk.injEq] at h
      rw [← h.2]; exact hlt
    · split at h
      · simp only [Except.ok.injEq, Prod.mk.injEq] at h
        rw [← h.2]; exact hlt
      · cases hc : copyOf codes s rest' with
        | error t => simp [hc, Except.map] at h
        | ok v =>
          obtain ⟨length, back, rest''⟩ := v
          simp only [hc, Except.map, Except.ok.injEq, Prod.mk.injEq] at h
          have := length_of_copyOf hc
          rw [← h.2]
          omega

/-- Data read so far and how it goes on: the bits that follow, or why it does not. -/
abbrev Progress := Array UInt8 × Except Trouble (List Bool)

/-- Reads coded data up to the item that ends a block. -/
def coded (codes : Codes) (out : Array UInt8) (bs : List Bool) : Progress :=
  match _h : item codes bs with
  | .error t => (out, .error t)
  | .ok (.byte b, rest) => coded codes (out.push b) rest
  | .ok (.stop, rest) => (out, .ok rest)
  | .ok (.copy length back, rest) =>
    if out.size < back then (out, .error .corrupt)
    else coded codes (copy length back out) rest
termination_by bs.length
decreasing_by all_goals exact length_of_item _h

/-- Reads so many bytes. -/
def plain : Nat → Array UInt8 → List Bool → Progress
  | 0, out, bs => (out, .ok bs)
  | k + 1, out, bs =>
    match number 8 bs with
    | .error t => (out, .error t)
    | .ok (n, rest) => plain k (out.push (.ofNat n)) rest

/-- Reads a stored block. It starts at a byte with its length and the complement of it. -/
def stored (out : Array UInt8) (bs : List Bool) : Progress :=
  let lengths : Except Trouble (Nat × List Bool) := do
    let (n, bs) ← number 16 (bs.drop (bs.length % 8))
    let (m, bs) ← number 16 bs
    if n + m = 65535 then return (n, bs) else throw .corrupt
  match lengths with
  | .error t => (out, .error t)
  | .ok (n, rest) => plain n out rest

/-- Reads a block of a kind. -/
def block (out : Array UInt8) (kind : Nat) (bs : List Bool) : Progress :=
  match kind with
  | 0 => stored out bs
  | 1 => coded fixedCodes out bs
  | 2 =>
    match ownCodes bs with
    | .error t => (out, .error t)
    | .ok (codes, rest) => coded codes out rest
  | _ => (out, .error .corrupt)

/-- Reads blocks up to the last; there are no more of them than bits. -/
def blocks : Nat → Array UInt8 → List Bool → Array UInt8 × Except Trouble Unit
  | 0, out, _ => (out, .error .truncated)
  | k + 1, out, bs =>
    match number 1 bs, number 2 (bs.drop 1) with
    | .ok (last, _), .ok (kind, rest) =>
      match block out kind rest with
      | (out, .ok rest) => if last = 1 then (out, .ok ()) else blocks k out rest
      | (out, .error t) => (out, .error t)
    | _, _ => (out, .error .truncated)

end Inflate

/-- What deflate data stand for, as far as they can be read, and whether they end as they should.
What follows their end is ignored. -/
def inflate (bytes : List UInt8) : Array UInt8 × Except Inflate.Trouble Unit :=
  Inflate.blocks (bits bytes).length #[] (bits bytes)

end Bindery.Zip
