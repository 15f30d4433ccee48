import OrionNetwork.FecRebuild
import Mathlib.Data.Vector.Basic

/-!
# The codec of the storage nodes

Data of a fixed number of pieces gets as many parity pieces, and any of these
pieces, as many as there are data pieces, give the data back. The work is done
by an erasure code of fixed parameters. The scratch buffer of the codec is
cleared before each use and left out.
-/
namespace OrionNetwork.StorageCodec
open Galois Fec

/-- Whether debug assertions are compiled in. -/
inductive Build where
  | debug
  | release

def pieceSize : ℕ := 1024

def dataPieces : Build → ℕ
  | .debug => 4
  | .release => 16

def parityPieces : Build → ℕ
  | .debug => 4
  | .release => 16

def maxPieces (b : Build) : ℕ := dataPieces b + parityPieces b

abbrev Piece := List.Vector Gf pieceSize
abbrev Data (b : Build) := List.Vector Piece (dataPieces b)
abbrev ReconstructBundle (b : Build) := List.Vector Share (dataPieces b)

def flatten {n : ℕ} (pieces : List.Vector Piece n) : List Gf := pieces.toList.flatMap (·.toList)

structure Codec where
  inner : Fec

namespace Codec

/-- None if the code cannot be made. -/
def default (b : Build) : Option Codec := (Fec.new (dataPieces b) (parityPieces b)).map .mk

/-- The flat parity. An error panics. -/
def encode {b : Build} (c : Codec) (data : Data b) : Option (List Gf) :=
  match c.inner.encode (flatten data) (parityPieces b * pieceSize) with
  | .error _ => none
  | .ok parity => some parity

/-- The shards as they are left behind. -/
def reconstruct {b : Build} (c : Codec) (shards : ReconstructBundle b) :
    Except RebuildError (List Share) :=
  c.inner.rebuild shards.toList

end Codec

/-- The piece with the given number, data pieces first. -/
def pieceAt {b : Build} (data : Data b) (parity : List Gf) (number : ℕ) : Share :=
  ⟨number, chunk pieceSize (flatten data ++ parity) number⟩

/-- The pieces with these numbers give the data back. -/
def RoundTrips {b : Build} (data : Data b) (numbers : List.Vector ℕ (dataPieces b)) : Prop :=
  ∃ codec parity shards, Codec.default b = some codec ∧ codec.encode data = some parity ∧
    codec.reconstruct (numbers.map (pieceAt data parity)) = .ok shards ∧
    shards.map (·.data) = data.toList.map (·.toList)

/-- A code with less than one block of parity cannot be made. -/
theorem new_eq_none {required total : ℕ} (h : total ≤ required) :
    Fec.new required total = none := by
  refine if_neg ?_
  rintro ⟨-, hlt, -⟩
  omega

/-- The codec takes the number of parity pieces for that of all pieces. -/
theorem parityPieces_le (b : Build) : parityPieces b ≤ dataPieces b := by
  cases b with
  | debug => exact le_rfl
  | release => exact le_rfl

theorem default_eq_none (b : Build) : Codec.default b = none := by
  rw [Codec.default, new_eq_none (parityPieces_le b), Option.map_none]

/-- No choice of pieces gives any data back, as there is no codec. -/
theorem never_roundTrips {b : Build} (data : Data b) (numbers : List.Vector ℕ (dataPieces b)) :
    ¬ RoundTrips data numbers := by
  rintro ⟨codec, parity, shards, hdefault, -⟩
  rw [default_eq_none] at hdefault
  cases hdefault

/-- Zeros, with all data pieces at hand. -/
theorem zeros_not_roundTrip :
    ¬ ∀ (b : Build) (data : Data b) (numbers : List.Vector ℕ (dataPieces b)),
      numbers.toList.Nodup → (∀ n ∈ numbers.toList, n < maxPieces b) → RoundTrips data numbers := by
  intro h
  obtain ⟨codec, -, -, hdefault, -⟩ := h .debug (.replicate _ (.replicate _ 0))
    ⟨[0, 1, 2, 3], rfl⟩ (by decide) (by decide)
  cases hdefault

end OrionNetwork.StorageCodec
