import FuzzingCiCd.Foundation.Transition
import Mathlib.Algebra.Group.Nat.Defs
import Mathlib.Data.List.Basic

/-!
# Buffers with bounds

Memory as a program in C sees it: an object is a sequence of less than `2 ^ 63` elements, and an
access is a position in it. Every operation checks what the language leaves undefined: a position
outside the object, a remainder by zero, and a difference of sizes below zero, which would wrap
around. A computation in which nothing of this happens returns.

Each operation has a lemma that says when it returns and that it keeps the length.

The checks are what a sanitizer would report, so that a function of the source is translated access
by access and its safety is the fact that its translation returns.
-/

open Transition

/-- What must not happen. -/
inductive BufferFault
  | outOfBounds
  | divisionByZero
  | underflow
  deriving DecidableEq

/-- A block of memory whose length fits an index of the machine. -/
structure Buffer (α : Type*) where
  data : List α
  bounded : data.length < 2 ^ 63
  deriving DecidableEq

namespace Buffer

/-- The sum of two sizes. -/
def sizeAdd (a b : ℕ) : ℕ := (a + b) % 2 ^ 64

/-- The difference of two sizes. -/
def sizeSub (a b : ℕ) : Except BufferFault ℕ := if b ≤ a then .ok (a - b) else .error .underflow

def sizeMod (a n : ℕ) : Except BufferFault ℕ :=
  if n = 0 then .error .divisionByZero else .ok (a % n)

variable {α : Type*}

def size (b : Buffer α) : ℕ := b.data.length

/-- An array of fixed length. -/
def ofVector {n : ℕ} (v : Vector α n) (h : n < 2 ^ 63) : Buffer α :=
  ⟨v.toList, by rw [Vector.length_toList]; exact h⟩

def load (b : Buffer α) (i : ℕ) : Except BufferFault α :=
  match b.data[i]? with
  | some a => .ok a
  | none => .error .outOfBounds

/-- The elements `b[start]`, …, `b[start + len - 1]`. -/
def slice (b : Buffer α) (start len : ℕ) : Except BufferFault (List α) :=
  if start + len ≤ b.size then .ok ((b.data.drop start).take len) else .error .outOfBounds

/-- Puts elements in the place of `b[start]`, `b[start + 1]`, …. -/
def splice (b : Buffer α) (start : ℕ) (elements : List α) : Except BufferFault (Buffer α) :=
  if h : start + elements.length ≤ b.data.length then
    .ok ⟨b.data.take start ++ elements ++ b.data.drop (start + elements.length), by
      have hbounded := b.bounded
      rw [List.length_append, List.length_append, List.length_take, List.length_drop]
      omega⟩
  else .error .outOfBounds

def store (b : Buffer α) (i : ℕ) (a : α) : Except BufferFault (Buffer α) := b.splice i [a]

def memcpy (dst : Buffer α) (target : ℕ) (src : Buffer α) (start len : ℕ) :
    Except BufferFault (Buffer α) := do
  let elements ← src.slice start len
  dst.splice target elements

/-- The same inside one buffer, where the ranges may overlap. -/
def memmove (b : Buffer α) (target start len : ℕ) : Except BufferFault (Buffer α) :=
  b.memcpy target b start len

section Returns

variable {b src : Buffer α} {i start target len : ℕ}

theorem size_lt (b : Buffer α) : b.size < 2 ^ 63 := b.bounded

theorem size_ofVector {n : ℕ} (v : Vector α n) (h : n < 2 ^ 63) : (ofVector v h).size = n :=
  Vector.length_toList

theorem sizeAdd_of_lt {a c : ℕ} (h : a + c < 2 ^ 64) : sizeAdd a c = a + c := Nat.mod_eq_of_lt h

theorem sizeSub_of_le {a c : ℕ} (h : c ≤ a) : sizeSub a c = .ok (a - c) := if_pos h

theorem sizeMod_of_pos {n : ℕ} (h : 0 < n) (a : ℕ) : sizeMod a n = .ok (a % n) := if_neg (by omega)

theorem exists_load (h : i < b.size) : ∃ a, b.load i = .ok a :=
  ⟨b.data[i], by rw [load, List.getElem?_eq_getElem h]⟩

theorem slice_of_le (h : start + len ≤ b.size) :
    b.slice start len = .ok ((b.data.drop start).take len) := if_pos h

theorem splice_of_le (elements : List α) (h : start + elements.length ≤ b.size) :
    ∃ b', b.splice start elements = .ok b' ∧
      b'.data = b.data.take start ++ elements ++ b.data.drop (start + elements.length) ∧
      b'.size = b.size := by
  refine ⟨_, dif_pos h, rfl, ?_⟩
  rw [size] at h
  rw [size, size, List.length_append, List.length_append, List.length_take, List.length_drop]
  omega

theorem exists_store (h : i < b.size) (a : α) :
    ∃ b', b.store i a = .ok b' ∧ b'.size = b.size := by
  obtain ⟨b', hsplice, -, hsize⟩ := splice_of_le [a] h
  exact ⟨b', hsplice, hsize⟩

theorem exists_memcpy (hsrc : start + len ≤ src.size) (hdst : target + len ≤ b.size) :
    ∃ b', b.memcpy target src start len = .ok b' ∧ b'.size = b.size := by
  have hlength : ((src.data.drop start).take len).length = len := by
    rw [size] at hsrc
    rw [List.length_take, List.length_drop]
    omega
  obtain ⟨b', hsplice, -, hsize⟩ := splice_of_le ((src.data.drop start).take len)
    (by rw [hlength]; exact hdst)
  refine ⟨b', ?_, hsize⟩
  rw [memcpy, slice_of_le hsrc, ok_bind, hsplice]

theorem exists_memmove (hsrc : start + len ≤ b.size) (hdst : target + len ≤ b.size) :
    ∃ b', b.memmove target start len = .ok b' ∧ b'.size = b.size :=
  exists_memcpy hsrc hdst

end Returns

end Buffer
