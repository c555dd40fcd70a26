import Mathlib.Data.List.Basic
import NexFi.PosixContent

/-!
# Splitting and base64 as in Go

`strings.SplitN` cuts at the first separators, so with two pieces the second one
keeps all further separators. `base64.StdEncoding` skips line ends, wants its
padding at the very end, and ignores the bits that the last digit has too many.
-/

namespace NexFi.GoText
open Posix

def ascii (s : String) : Bytes := s.toList.map fun c => UInt8.ofNat c.toNat

def utf8 (s : String) : Bytes := s.toList.flatMap String.utf8EncodeChar

theorem utf8_ne_nil {s : String} (h : s ≠ "") : utf8 s ≠ [] := by
  obtain ⟨c, l, hs⟩ := List.exists_cons_of_ne_nil (mt String.toList_eq_nil_iff.mp h)
  have hlength := String.length_utf8EncodeChar c
  have hpos := Char.utf8Size_pos c
  intro hnil
  rw [utf8, hs, List.flatMap_cons, List.append_eq_nil_iff] at hnil
  rw [hnil.1, List.length_nil] at hlength
  omega

section Split

def cut (sep : UInt8) : Bytes → Option (Bytes × Bytes)
  | [] => none
  | c :: s => if c = sep then some ([], s) else (cut sep s).map fun p => (c :: p.1, p.2)

def splitN (sep : UInt8) : ℕ → Bytes → List Bytes
  | 0, _ => []
  | 1, s => [s]
  | n + 2, s =>
    match cut sep s with
    | none => [s]
    | some (before, after) => before :: splitN sep (n + 1) after

theorem cut_eq_some_iff {sep : UInt8} {s before after : Bytes} :
    cut sep s = some (before, after) ↔ s = before ++ sep :: after ∧ sep ∉ before := by
  induction s generalizing before with
  | nil => simp [cut]
  | cons c s ih =>
    rw [cut]
    split_ifs with hc
    · subst hc
      cases before with
      | nil => simp
      | cons d before => simp_all
    · cases before with
      | nil => simp [hc]
      | cons d before =>
        rw [Option.map_eq_some_iff]
        constructor
        · rintro ⟨⟨b, a⟩, hcut, heq⟩
          cases heq
          obtain ⟨rfl, hb⟩ := ih.mp hcut
          exact ⟨rfl, by simp [hb, Ne.symm hc]⟩
        · rintro ⟨heq, hnot⟩
          rw [List.cons_append, List.cons.injEq] at heq
          obtain ⟨rfl, rfl⟩ := heq
          exact ⟨(before, after), ih.mpr ⟨rfl, fun h => hnot (List.mem_cons_of_mem _ h)⟩, rfl⟩

theorem splitN_two {sep : UInt8} {s before after : Bytes} :
    splitN sep 2 s = [before, after] ↔ s = before ++ sep :: after ∧ sep ∉ before := by
  rw [← cut_eq_some_iff, splitN]
  cases cut sep s with
  | none => simp
  | some p => simp [splitN, Prod.ext_iff]

theorem splitN_two_cases (sep : UInt8) (s : Bytes) :
    splitN sep 2 s = [s] ∨ ∃ before after, splitN sep 2 s = [before, after] := by
  rw [splitN]
  cases cut sep s with
  | none => exact Or.inl rfl
  | some p => exact Or.inr ⟨p.1, p.2, rfl⟩

end Split

section Base64

def pad : UInt8 := 61

def digit (n : ℕ) : UInt8 :=
  if n < 26 then UInt8.ofNat (65 + n)
  else if n < 52 then UInt8.ofNat (71 + n)
  else if n < 62 then UInt8.ofNat (n - 4)
  else if n = 62 then 43
  else 47

def digitValue (b : UInt8) : Option ℕ :=
  if 65 ≤ b ∧ b ≤ 90 then some (b.toNat - 65)
  else if 97 ≤ b ∧ b ≤ 122 then some (b.toNat - 71)
  else if 48 ≤ b ∧ b ≤ 57 then some (b.toNat + 4)
  else if b = 43 then some 62
  else if b = 47 then some 63
  else none

def byte₁ (x y : ℕ) : UInt8 := UInt8.ofNat (x * 4 + y / 16)
def byte₂ (y z : ℕ) : UInt8 := UInt8.ofNat (y % 16 * 16 + z / 4)
def byte₃ (z u : ℕ) : UInt8 := UInt8.ofNat (z % 4 * 64 + u)

def encodeToString : Bytes → Bytes
  | [] => []
  | [a] => [digit (a.toNat / 4), digit (a.toNat % 4 * 16), pad, pad]
  | [a, b] =>
    [digit (a.toNat / 4), digit (a.toNat % 4 * 16 + b.toNat / 16), digit (b.toNat % 16 * 4), pad]
  | a :: b :: c :: s =>
    digit (a.toNat / 4) :: digit (a.toNat % 4 * 16 + b.toNat / 16) ::
      digit (b.toNat % 16 * 4 + c.toNat / 64) :: digit (c.toNat % 64) :: encodeToString s

def decodeQuanta : Bytes → Option Bytes
  | [] => some []
  | a :: b :: c :: d :: s => do
    let x ← digitValue a
    let y ← digitValue b
    if c = pad ∧ d = pad ∧ s = [] then return [byte₁ x y]
    let z ← digitValue c
    if d = pad ∧ s = [] then return [byte₁ x y, byte₂ y z]
    let u ← digitValue d
    let rest ← decodeQuanta s
    return byte₁ x y :: byte₂ y z :: byte₃ z u :: rest
  | _ => none

def decodeString (s : Bytes) : Option Bytes := decodeQuanta (s.filter fun b => b ≠ 10 ∧ b ≠ 13)

theorem digitValue_digit {n : ℕ} (h : n < 64) : digitValue (digit n) = some n := by
  have hdigits : ∀ i : Fin 64, digitValue (digit i) = some i.val := by decide
  exact hdigits ⟨n, h⟩

theorem digit_ne {n : ℕ} (h : n < 64) :
    (digit n ≠ 10 ∧ digit n ≠ 13 ∧ digit n ≠ 32) ∧ digit n ≠ pad := by
  have hdigits : ∀ i : Fin 64,
      (digit i ≠ 10 ∧ digit i ≠ 13 ∧ digit i ≠ 32) ∧ digit i ≠ pad := by decide
  exact hdigits ⟨n, h⟩

theorem encodeToString_plain (b : Bytes) : ∀ c ∈ encodeToString b, c ≠ 10 ∧ c ≠ 13 ∧ c ≠ 32 := by
  have hpad : pad ≠ 10 ∧ pad ≠ 13 ∧ pad ≠ 32 := by decide
  induction b using encodeToString.induct with
  | case1 => simp [encodeToString]
  | case2 a =>
    have ha := a.toNat_lt
    have h₁ := (digit_ne (n := a.toNat / 4) (by omega)).1
    have h₂ := (digit_ne (n := a.toNat % 4 * 16) (by omega)).1
    simp only [encodeToString, List.forall_mem_cons]
    exact ⟨h₁, h₂, hpad, hpad, by simp⟩
  | case3 a b =>
    have ha := a.toNat_lt
    have hb := b.toNat_lt
    have h₁ := (digit_ne (n := a.toNat / 4) (by omega)).1
    have h₂ := (digit_ne (n := a.toNat % 4 * 16 + b.toNat / 16) (by omega)).1
    have h₃ := (digit_ne (n := b.toNat % 16 * 4) (by omega)).1
    simp only [encodeToString, List.forall_mem_cons]
    exact ⟨h₁, h₂, h₃, hpad, by simp⟩
  | case4 a b c s ih =>
    have ha := a.toNat_lt
    have hb := b.toNat_lt
    have hc := c.toNat_lt
    have h₁ := (digit_ne (n := a.toNat / 4) (by omega)).1
    have h₂ := (digit_ne (n := a.toNat % 4 * 16 + b.toNat / 16) (by omega)).1
    have h₃ := (digit_ne (n := b.toNat % 16 * 4 + c.toNat / 64) (by omega)).1
    have h₄ := (digit_ne (n := c.toNat % 64) (by omega)).1
    simp only [encodeToString, List.forall_mem_cons]
    exact ⟨h₁, h₂, h₃, h₄, ih⟩

theorem ofNat_eq {n : ℕ} {a : UInt8} (h : n = a.toNat) : UInt8.ofNat n = a := by
  rw [h, UInt8.ofNat_toNat]

theorem decodeQuanta_encodeToString (b : Bytes) : decodeQuanta (encodeToString b) = some b := by
  induction b using encodeToString.induct with
  | case1 => rfl
  | case2 a =>
    have ha := a.toNat_lt
    have h₁ : byte₁ (a.toNat / 4) (a.toNat % 4 * 16) = a := ofNat_eq (by omega)
    rw [encodeToString, decodeQuanta, digitValue_digit (by omega), digitValue_digit (by omega)]
    simp [h₁]
  | case3 a b =>
    have ha := a.toNat_lt
    have hb := b.toNat_lt
    have h₁ : byte₁ (a.toNat / 4) (a.toNat % 4 * 16 + b.toNat / 16) = a := ofNat_eq (by omega)
    have h₂ : byte₂ (a.toNat % 4 * 16 + b.toNat / 16) (b.toNat % 16 * 4) = b := ofNat_eq (by omega)
    have hz := (digit_ne (n := b.toNat % 16 * 4) (by omega)).2
    rw [encodeToString, decodeQuanta, digitValue_digit (by omega), digitValue_digit (by omega),
      digitValue_digit (by omega)]
    simp [hz, h₁, h₂]
  | case4 a b c s ih =>
    have ha := a.toNat_lt
    have hb := b.toNat_lt
    have hc := c.toNat_lt
    have h₁ : byte₁ (a.toNat / 4) (a.toNat % 4 * 16 + b.toNat / 16) = a := ofNat_eq (by omega)
    have h₂ : byte₂ (a.toNat % 4 * 16 + b.toNat / 16) (b.toNat % 16 * 4 + c.toNat / 64) = b :=
      ofNat_eq (by omega)
    have h₃ : byte₃ (b.toNat % 16 * 4 + c.toNat / 64) (c.toNat % 64) = c := ofNat_eq (by omega)
    have hz := (digit_ne (n := b.toNat % 16 * 4 + c.toNat / 64) (by omega)).2
    have hu := (digit_ne (n := c.toNat % 64) (by omega)).2
    rw [encodeToString, decodeQuanta, digitValue_digit (by omega), digitValue_digit (by omega),
      digitValue_digit (by omega), digitValue_digit (by omega), ih]
    simp [hz, hu, h₁, h₂, h₃]

theorem decodeString_encodeToString (b : Bytes) : decodeString (encodeToString b) = some b := by
  have hfilter : (encodeToString b).filter (fun c => c ≠ 10 ∧ c ≠ 13) = encodeToString b := by
    refine List.filter_eq_self.mpr fun c hc => ?_
    obtain ⟨h₁, h₂, -⟩ := encodeToString_plain b c hc
    simp [h₁, h₂]
  rw [decodeString, hfilter, decodeQuanta_encodeToString]

end Base64
end NexFi.GoText
