import GruutMerger.Lib.Bytes

/-!
# SHA-256

The hash function on byte strings, with words as natural numbers below 2^32.
Each new word is evaluated before it is used, so that closed terms can be
checked by evaluation.
-/
namespace ByteText.Sha256

def wordSize : Nat := 2 ^ 32

def add (a b : Nat) : Nat := (a + b) % wordSize

def rotr (n x : Nat) : Nat := x >>> n ||| (x <<< (32 - n)) % wordSize

def bigSigma0 (x : Nat) : Nat := rotr 2 x ^^^ rotr 13 x ^^^ rotr 22 x
def bigSigma1 (x : Nat) : Nat := rotr 6 x ^^^ rotr 11 x ^^^ rotr 25 x
def smallSigma0 (x : Nat) : Nat := rotr 7 x ^^^ rotr 18 x ^^^ x >>> 3
def smallSigma1 (x : Nat) : Nat := rotr 17 x ^^^ rotr 19 x ^^^ x >>> 10

def choose (x y z : Nat) : Nat := (x &&& y) ^^^ ((wordSize - 1 - x) &&& z)
def majority (x y z : Nat) : Nat := (x &&& y) ^^^ (x &&& z) ^^^ (y &&& z)

def roundConstants : List Nat :=
  [0x428a2f98, 0x71374491, 0xb5c0fbcf, 0xe9b5dba5, 0x3956c25b, 0x59f111f1, 0x923f82a4, 0xab1c5ed5,
   0xd807aa98, 0x12835b01, 0x243185be, 0x550c7dc3, 0x72be5d74, 0x80deb1fe, 0x9bdc06a7, 0xc19bf174,
   0xe49b69c1, 0xefbe4786, 0x0fc19dc6, 0x240ca1cc, 0x2de92c6f, 0x4a7484aa, 0x5cb0a9dc, 0x76f988da,
   0x983e5152, 0xa831c66d, 0xb00327c8, 0xbf597fc7, 0xc6e00bf3, 0xd5a79147, 0x06ca6351, 0x14292967,
   0x27b70a85, 0x2e1b2138, 0x4d2c6dfc, 0x53380d13, 0x650a7354, 0x766a0abb, 0x81c2c92e, 0x92722c85,
   0xa2bfe8a1, 0xa81a664b, 0xc24b8b70, 0xc76c51a3, 0xd192e819, 0xd6990624, 0xf40e3585, 0x106aa070,
   0x19a4c116, 0x1e376c08, 0x2748774c, 0x34b0bcb5, 0x391c0cb3, 0x4ed8aa4a, 0x5b9cca4f, 0x682e6ff3,
   0x748f82ee, 0x78a5636f, 0x84c87814, 0x8cc70208, 0x90befffa, 0xa4506ceb, 0xbef9a3f7, 0xc67178f2]

/-- Evaluate a number before it is used. -/
def force {A : Type} (n : Nat) (k : Nat → A) : A :=
  match n with
  | 0 => k 0
  | n + 1 => k (n + 1)

structure Working where
  a : Nat
  b : Nat
  c : Nat
  d : Nat
  e : Nat
  f : Nat
  g : Nat
  h : Nat

def initial : Working :=
  ⟨0x6a09e667, 0xbb67ae85, 0x3c6ef372, 0xa54ff53a, 0x510e527f, 0x9b05688c, 0x1f83d9ab, 0x5be0cd19⟩

def round (s : Working) (k w : Nat) : Working :=
  match s with
  | ⟨a, b, c, d, e, f, g, h⟩ =>
    force (add (add (add h (bigSigma1 e)) (add (choose e f g) k)) w) fun t =>
    force (add t (add (bigSigma0 a) (majority a b c))) fun a' =>
    force (add d t) fun e' => ⟨a', a, b, c, e', e, f, g⟩

/-- The next word of the schedule, from the last sixteen, newest first. -/
def nextWord (recent : List Nat) : Nat :=
  add (add (smallSigma1 (recent.getD 1 0)) (recent.getD 6 0)) (add (smallSigma0 (recent.getD 14 0)) (recent.getD 15 0))

/-- One round for each constant, first with the words of the block and then with those
of the schedule. -/
def rounds : List Nat → List Nat → List Nat → Working → Working
  | [], _, _, s => s
  | k :: ks, w :: block, recent, s => rounds ks block (w :: recent) (round s k w)
  | k :: ks, [], recent, s => force (nextWord recent) fun w => rounds ks [] (w :: recent.take 15) (round s k w)

def compress (s : Working) (block : List Nat) : Working :=
  match s, rounds roundConstants block [] s with
  | ⟨a, b, c, d, e, f, g, h⟩, ⟨a', b', c', d', e', f', g', h'⟩ =>
    force (add a a') fun a => force (add b b') fun b => force (add c c') fun c => force (add d d') fun d =>
    force (add e e') fun e => force (add f f') fun f => force (add g g') fun g => force (add h h') fun h =>
      ⟨a, b, c, d, e, f, g, h⟩

/-- Big-endian words of a string whose length is a multiple of four. -/
def words : Bytes → List Nat
  | b0 :: b1 :: b2 :: b3 :: rest =>
    force (b0.toNat * 2 ^ 24 + b1.toNat * 2 ^ 16 + b2.toNat * 2 ^ 8 + b3.toNat) fun w => w :: words rest
  | _ => []

def bytesOf (len n : Nat) : Bytes := (List.range len).map fun i => UInt8.ofNat (n / 256 ^ (len - 1 - i))

/-- A one bit, zeros, and the length in bits in the last eight bytes of a block. -/
def padding (message : Bytes) : Bytes :=
  message ++ 128 :: List.replicate ((119 - message.length % 64) % 64) 0 ++ bytesOf 8 (8 * message.length)

def digest (s : Working) : Bytes :=
  [s.a, s.b, s.c, s.d, s.e, s.f, s.g, s.h].flatMap (bytesOf 4)

def blocks : Nat → List Nat → Working → Working
  | 0, _, s => s
  | n + 1, ws, s => blocks n (ws.drop 16) (compress s (ws.take 16))

def hash (message : Bytes) : Bytes :=
  let ws := words (padding message)
  digest (blocks (ws.length / 16) ws initial)

theorem length_hash (message : Bytes) : (hash message).length = 32 := by
  simp [hash, digest, bytesOf]

example : hash (ascii "abc") =
    [0xba, 0x78, 0x16, 0xbf, 0x8f, 0x01, 0xcf, 0xea, 0x41, 0x41, 0x40, 0xde, 0x5d, 0xae, 0x22, 0x23,
     0xb0, 0x03, 0x61, 0xa3, 0x96, 0x17, 0x7a, 0x9c, 0xb4, 0x10, 0xff, 0x61, 0xf2, 0x00, 0x15, 0xad] := by
  decide +kernel

end ByteText.Sha256
