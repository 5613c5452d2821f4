import Mathlib.Data.List.Basic
import Mathlib.Tactic.Ring

/-! Texts of bytes: numbers of a fixed width, lowest byte first, and what stands at a position of a text. -/
namespace Funbun.Library

def leBytes : Nat → Nat → List UInt8
  | 0, _ => []
  | n + 1, v => UInt8.ofNat v :: leBytes n (v / 256)

def ofLeBytes : List UInt8 → Nat
  | [] => 0
  | byte :: bytes => byte.toNat + 256 * ofLeBytes bytes

@[simp] theorem length_leBytes (n v : Nat) : (leBytes n v).length = n := by
  induction n generalizing v with
  | zero => rfl
  | succ n ih => simp [leBytes, ih]

theorem ofLeBytes_leBytes {n v : Nat} (h : v < 256 ^ n) : ofLeBytes (leBytes n v) = v := by
  induction n generalizing v with
  | zero =>
    have : v = 0 := by simpa using h
    simp [leBytes, ofLeBytes, this]
  | succ n ih =>
    have hdiv : v / 256 < 256 ^ n := by
      rw [Nat.div_lt_iff_lt_mul (by decide), ← pow_succ]
      exact h
    simp only [leBytes, ofLeBytes, ih hdiv, UInt8.toNat_ofNat']
    omega

theorem ofLeBytes_leBytes_mod (n v : Nat) : ofLeBytes (leBytes n v) = v % 256 ^ n := by
  induction n generalizing v with
  | zero => simp [leBytes, ofLeBytes, Nat.mod_one]
  | succ n ih =>
    have hsplit : v % 256 ^ (n + 1) = v % 256 + 256 * (v / 256 % 256 ^ n) := by
      rw [pow_succ, Nat.mul_comm, Nat.mod_mul]
    simp only [leBytes, ofLeBytes, ih, UInt8.toNat_ofNat', hsplit]

theorem leBytes_add (n m v : Nat) : leBytes (n + m) v = leBytes n v ++ leBytes m (v / 256 ^ n) := by
  induction n generalizing v with
  | zero => simp [leBytes]
  | succ n ih =>
    have hdiv : v / 256 / 256 ^ n = v / 256 ^ (n + 1) := by
      rw [Nat.div_div_eq_div_mul, pow_succ, Nat.mul_comm]
    rw [Nat.add_right_comm]
    simp only [leBytes, ih, hdiv, List.cons_append]

theorem ofLeBytes_append (a b : List UInt8) : ofLeBytes (a ++ b) = ofLeBytes a + 256 ^ a.length * ofLeBytes b := by
  induction a with
  | nil => simp [ofLeBytes]
  | cons byte a ih =>
    simp only [List.cons_append, ofLeBytes, ih, List.length_cons]
    ring

/-- Highest byte first -/
def beBytes (n v : Nat) : List UInt8 := (leBytes n v).reverse

def ofBeBytes (bytes : List UInt8) : Nat := ofLeBytes bytes.reverse

@[simp] theorem length_beBytes (n v : Nat) : (beBytes n v).length = n := by simp [beBytes]

theorem ofBeBytes_beBytes {n v : Nat} (h : v < 256 ^ n) : ofBeBytes (beBytes n v) = v := by
  rw [ofBeBytes, beBytes, List.reverse_reverse, ofLeBytes_leBytes h]

/-- The piece stands in the text at the position. -/
def At {α : Type} (text piece : List α) (pos : Nat) : Prop := ∃ rest, text.drop pos = piece ++ rest

section At
variable {α : Type} {text piece : List α} {pos : Nat}

theorem at_append (before piece after : List α) : At (before ++ piece ++ after) piece before.length := by
  refine ⟨after, ?_⟩
  rw [List.append_assoc, List.drop_left]

theorem At.left {a b : List α} (h : At text (a ++ b) pos) : At text a pos := by
  obtain ⟨rest, h⟩ := h
  exact ⟨b ++ rest, by rw [h, List.append_assoc]⟩

theorem At.right {a b : List α} (h : At text (a ++ b) pos) : At text b (pos + a.length) := by
  obtain ⟨rest, h⟩ := h
  refine ⟨rest, ?_⟩
  rw [← List.drop_drop, h, List.append_assoc, List.drop_left]

theorem At.take (h : At text piece pos) : (text.drop pos).take piece.length = piece := by
  obtain ⟨rest, h⟩ := h
  rw [h, List.take_left]

theorem At.getElem? {a : α} (h : At text (a :: piece) pos) : text[pos]? = some a := by
  obtain ⟨rest, h⟩ := h
  have hdrop : (text.drop pos)[0]? = some a := by
    rw [h]
    rfl
  rwa [List.getElem?_drop, Nat.add_zero] at hdrop

theorem At.getD {a : α} (h : At text (a :: piece) pos) (d : α) : text.getD pos d = a := by
  rw [List.getD_eq_getElem?_getD, h.getElem?, Option.getD_some]

theorem At.tail {a : α} (h : At text (a :: piece) pos) : At text piece (pos + 1) :=
  At.right (a := [a]) h

/-- The element of a piece, found in the text -/
theorem At.getElem?_add (h : At text piece pos) {i : Nat} (hi : i < piece.length) : text[pos + i]? = piece[i]? := by
  obtain ⟨rest, h⟩ := h
  rw [← List.getElem?_drop, h, List.getElem?_append_left hi]

theorem At.length_le (h : At text piece pos) : piece.length ≤ text.length - pos := by
  obtain ⟨rest, h⟩ := h
  rw [← List.length_drop, h, List.length_append]
  exact Nat.le_add_right _ _

theorem At.lt {a : α} (h : At text (a :: piece) pos) : pos < text.length :=
  (List.getElem?_eq_some_iff.1 h.getElem?).1

/-- In a table of rows of one width -/
theorem At.row {β : Type} {f : β → List α} {width : Nat} (hwidth : ∀ b, (f b).length = width) {rows : List β}
    (h : At text (rows.flatMap f) pos) {i : Nat} {b : β} (hb : rows[i]? = some b) : At text (f b) (pos + i * width) := by
  induction rows generalizing pos i with
  | nil => simp at hb
  | cons row rows ih =>
    rw [List.flatMap_cons] at h
    cases i with
    | zero =>
      rw [List.getElem?_cons_zero, Option.some_inj] at hb
      rw [Nat.zero_mul, Nat.add_zero, ← hb]
      exact h.left
    | succ i =>
      have hrest := ih h.right hb
      rw [hwidth, add_assoc] at hrest
      rwa [Nat.succ_mul, Nat.add_comm (i * width)]

end At

end Funbun.Library
