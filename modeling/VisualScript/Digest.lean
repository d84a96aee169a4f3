import VisualScript.Text.Integer

namespace VisualScript.Digest

abbrev Words := Array UInt32

def initial : Words :=
  #[0x6a09e667, 0xbb67ae85, 0x3c6ef372, 0xa54ff53a, 0x510e527f, 0x9b05688c, 0x1f83d9ab, 0x5be0cd19]

def chunkStart : UInt32 := 1

def chunkEnd : UInt32 := 2

def parentFlag : UInt32 := 4

def rootFlag : UInt32 := 8

def rotate (x : UInt32) (n : UInt32) : UInt32 := (x >>> n) ||| (x <<< (32 - n))

/-- Mixes two message words into one column or diagonal of the state. -/
def mix (s : Words) (a b c d : Nat) (x y : UInt32) : Words :=
  let va := s.getD a 0 + s.getD b 0 + x
  let vd := rotate (s.getD d 0 ^^^ va) 16
  let vc := s.getD c 0 + vd
  let vb := rotate (s.getD b 0 ^^^ vc) 12
  let va := va + vb + y
  let vd := rotate (vd ^^^ va) 8
  let vc := vc + vd
  let vb := rotate (vb ^^^ vc) 7
  (((s.setIfInBounds a va).setIfInBounds b vb).setIfInBounds c vc).setIfInBounds d vd

def round (s m : Words) : Words :=
  let s := mix s 0 4 8 12 (m.getD 0 0) (m.getD 1 0)
  let s := mix s 1 5 9 13 (m.getD 2 0) (m.getD 3 0)
  let s := mix s 2 6 10 14 (m.getD 4 0) (m.getD 5 0)
  let s := mix s 3 7 11 15 (m.getD 6 0) (m.getD 7 0)
  let s := mix s 0 5 10 15 (m.getD 8 0) (m.getD 9 0)
  let s := mix s 1 6 11 12 (m.getD 10 0) (m.getD 11 0)
  let s := mix s 2 7 8 13 (m.getD 12 0) (m.getD 13 0)
  mix s 3 4 9 14 (m.getD 14 0) (m.getD 15 0)

def permute (m : Words) : Words :=
  #[2, 6, 3, 10, 7, 0, 4, 13, 1, 11, 12, 5, 9, 14, 15, 8].map fun i => m.getD i 0

def rounds : Nat → Words → Words → Words
  | 0, s, _ => s
  | n + 1, s, m => rounds n (round s m) (permute m)

/-- A compression that is still to be run: as a chaining value, or as the root. -/
structure Output where
  chaining : Words
  block : Words
  counter : UInt64
  length : UInt32
  flags : UInt32

/-- The first eight words of the compression. -/
def Output.compress (o : Output) (flags : UInt32) : Words :=
  let s := o.chaining ++ initial.extract 0 4 ++
    #[o.counter.toUInt32, (o.counter >>> 32).toUInt32, o.length, flags]
  let s := rounds 7 s o.block
  (Array.range 8).map fun i => s.getD i 0 ^^^ s.getD (i + 8) 0

def Output.value (o : Output) : Words := o.compress o.flags

def Output.root (o : Output) : Words := { o with counter := 0 }.compress (o.flags ||| rootFlag)

/-- Sixteen little-endian words, filled up with zeros. -/
def blockWords (bytes : List UInt8) : Words :=
  let a := bytes.toArray
  (Array.range 16).map fun i =>
    (a.getD (4 * i) 0).toUInt32 ||| ((a.getD (4 * i + 1) 0).toUInt32 <<< 8) |||
      ((a.getD (4 * i + 2) 0).toUInt32 <<< 16) ||| ((a.getD (4 * i + 3) 0).toUInt32 <<< 24)

/-- Splits into pieces of `n + 1` bytes, the last one shorter; the empty list is one empty piece. -/
def pieces (n : Nat) (bytes : List UInt8) : List (List UInt8) :=
  if bytes.length ≤ n + 1 then [bytes] else bytes.take (n + 1) :: pieces n (bytes.drop (n + 1))
termination_by bytes.length
decreasing_by simp; omega

/-- Runs all blocks of a chunk but the last one. -/
def blocks (counter : UInt64) : Words → UInt32 → List (List UInt8) → Output
  | cv, start, [] => ⟨cv, blockWords [], counter, 0, start ||| chunkEnd⟩
  | cv, start, [b] => ⟨cv, blockWords b, counter, UInt32.ofNat b.length, start ||| chunkEnd⟩
  | cv, start, b :: c :: rest =>
      blocks counter (Output.value ⟨cv, blockWords b, counter, 64, start⟩) 0 (c :: rest)

def chunk (index : Nat) (bytes : List UInt8) : Output :=
  blocks (UInt64.ofNat index) initial chunkStart (pieces 63 bytes)

def parent (left right : Words) : Output := ⟨initial, left ++ right, 0, 64, parentFlag⟩

/-- The left subtree holds the greatest power of two of chunks that leaves something to the right. -/
def leftLength (n : Nat) : Nat := Nat.pow 2 (n - 1).log2

theorem leftLength_lt {n : Nat} (h : 2 ≤ n) : leftLength n < n := by
  have h1 : leftLength n ≤ n - 1 := Nat.log2_self_le (by omega)
  omega

theorem leftLength_pos (n : Nat) : 0 < leftLength n := Nat.two_pow_pos _

def tree (chunks : List Output) : Output :=
  match chunks with
  | [] => chunk 0 []
  | [c] => c
  | a :: b :: rest =>
      parent (tree ((a :: b :: rest).take (leftLength (rest.length + 2)))).value
        (tree ((a :: b :: rest).drop (leftLength (rest.length + 2)))).value
termination_by chunks.length
decreasing_by
  · have := leftLength_lt (n := rest.length + 2) (by omega)
    simp only [List.length_take, List.length_cons]
    omega
  · have := leftLength_pos (rest.length + 2)
    simp only [List.length_drop, List.length_cons]
    omega

def hexByte (b : Nat) : List Char := [Nat.digitChar (b / 16), Nat.digitChar (b % 16)]

def wordText (w : UInt32) : List Char :=
  let n := w.toNat
  hexByte (n % 256) ++ hexByte (n / 256 % 256) ++ hexByte (n / 65536 % 256) ++ hexByte (n / 16777216)

/-- The digest of the bytes, in lower-case hexadecimal digits. -/
def ofBytes (bytes : List UInt8) : String :=
  let chunks := (pieces 1023 bytes).zipIdx.map fun p => chunk p.2 p.1
  String.ofList ((tree chunks).root.toList.flatMap wordText)

end VisualScript.Digest
