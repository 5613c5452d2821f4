import Funbun.Library.Descending
import Funbun.Semver.Version

/-! Versions are ordered by keys, as long as builds with one hash are one build. -/
namespace Funbun.Semver
open Library.Descending Std

/-! ### Versions -/

namespace Tag

def partKey (part : List UInt8) : Nat ⊕ List UInt8 :=
  match parseAscii part with
  | some n => .inl n
  | none => .inr part

abbrev comparePart : List UInt8 → List UInt8 → Ordering := comparing partKey (compareSum compare compare)

theorem orderPart_eq (lhs rhs : List UInt8) : orderPart lhs rhs = comparePart lhs rhs := by
  unfold orderPart comparePart comparing partKey
  cases parseAscii lhs <;> cases parseAscii rhs <;> rfl

theorem orderParts_eq (lhs rhs : List (List UInt8)) : orderParts lhs rhs = List.compareLex comparePart lhs rhs := by
  induction lhs generalizing rhs with
  | nil => cases rhs <;> rfl
  | cons l lhs ih =>
    cases rhs with
    | nil => rfl
    | cons r rhs =>
      rw [orderParts, List.compareLex_cons_cons, orderPart_eq, ih]
      cases comparePart l r <;> rfl

/-- A pre-release comes before what has only a build. -/
def key (buf : List UInt8) (t : Tag) : List (List UInt8) ⊕ List UInt8 :=
  if t.hasPre then .inl (t.preParts buf) else .inr (t.build.value.slice buf)

abbrev compareKeys : List (List UInt8) ⊕ List UInt8 → List (List UInt8) ⊕ List UInt8 → Ordering :=
  compareSum (List.compareLex comparePart) compare

end Tag

/-- Builds with one hash are one build. -/
def ExternalString.Agree (s s' : ExternalString) (buf : List UInt8) : Prop :=
  s.hash = s'.hash → 0 < s.hash → s.value.slice buf = s'.value.slice buf

theorem ExternalString.order_eq {s s' : ExternalString} {buf : List UInt8} (h : s.Agree s' buf) :
    s.order s' buf = compare (s.value.slice buf) (s'.value.slice buf) := by
  rw [order]
  split
  · rename_i hhash
    rw [h hhash.1 hhash.2, ReflOrd.compare_self]
  · rfl

theorem SemverString.slice_of_isEmpty {s : SemverString} (h : s.isEmpty = true) (buf : List UInt8) : s.slice buf = [] := by
  have hzero : ∀ b ∈ s.bytes, b = 0 := by
    intro b hb
    have hall := List.all_eq_true.mp h b hb
    exact beq_iff_eq.mp hall
  have hlast : s.bytes.getD 7 0 = 0 := by
    rw [List.getD_eq_getElem?_getD]
    cases hget : s.bytes[7]? with
    | none => rfl
    | some b => exact hzero b (List.mem_of_getElem? hget)
  have hinline : UInt8.toNat 0 &&& 128 = 0 := rfl
  rw [slice, hlast, if_pos hinline]
  cases hbytes : s.bytes with
  | nil => rfl
  | cons b rest =>
    rw [hzero b (hbytes ▸ List.mem_cons_self)]
    rfl

namespace Version

abbrev compareKeys (buf : List UInt8) : Version → Version → Ordering :=
  compareLex (compareOn major) (compareLex (compareOn minor) (compareLex (compareOn patch)
    (comparing (fun v => v.tag.key buf) Tag.compareKeys)))

theorem ite_lt_eq (a b : UInt64) (o : Ordering) :
    (if a < b then .lt else if b < a then .gt else o) = (compare a b).then o := by
  show _ = (compareOfLessAndEq a b).then o
  rw [compareOfLessAndEq]
  by_cases hlt : a < b
  · rw [if_pos hlt, if_pos hlt]
    rfl
  · rw [if_neg hlt, if_neg hlt]
    by_cases heq : a = b
    · rw [if_pos heq, if_neg (heq ▸ hlt)]
      rfl
    · have hgt : b < a := UInt64.lt_of_le_of_ne (UInt64.not_lt.mp hlt) (Ne.symm heq)
      rw [if_neg heq, if_pos hgt]
      rfl

def orderPresence (lhs rhs : Version) : Ordering :=
  if lhs.tag.hasPre then if !rhs.tag.hasPre then .lt else .eq
  else if rhs.tag.hasPre then .gt else .eq

theorem orderWithoutTag_eq (lhs rhs : Version) : lhs.orderWithoutTag rhs =
    (compare lhs.major rhs.major).then ((compare lhs.minor rhs.minor).then ((compare lhs.patch rhs.patch).then
      (lhs.orderPresence rhs))) := by
  rw [orderWithoutTag, ite_lt_eq, ite_lt_eq, ite_lt_eq]
  rfl

/-- Builds decide only between two releases of one triple, and there those with one hash are one build. -/
def Agree (v v' : Version) (buf : List UInt8) : Prop :=
  v.orderWithoutTag v' = .eq → v.tag.hasPre = false → v.tag.build.Agree v'.tag.build buf

/-- Tags, when both or none have a pre-release or not -/
theorem orderPresence_then (v v' : Version) (buf : List UInt8)
    (h : v.orderPresence v' = .eq → v.tag.hasPre = false → v.tag.build.Agree v'.tag.build buf) :
    (match v.orderPresence v' with
      | .eq => v.tag.order v'.tag buf
      | notEqual => notEqual) = Tag.compareKeys (v.tag.key buf) (v'.tag.key buf) := by
  rw [orderPresence] at h
  rw [orderPresence, Tag.key, Tag.key]
  cases hpre : v.tag.hasPre <;> cases hpre' : v'.tag.hasPre
  · have hempty : v.tag.pre.isEmpty = true := by simpa [Tag.hasPre] using hpre
    have hempty' : v'.tag.pre.isEmpty = true := by simpa [Tag.hasPre] using hpre'
    have hequal : v.tag.pre.order v'.tag.pre buf = .eq := by
      rw [ExternalString.order_eq, SemverString.slice_of_isEmpty hempty, SemverString.slice_of_isEmpty hempty']
      · rfl
      · intro _ _
        rw [SemverString.slice_of_isEmpty hempty, SemverString.slice_of_isEmpty hempty']
    simp only [Tag.order, hempty, Bool.false_eq_true, if_false, Bool.not_true, Bool.false_and, hequal]
    exact ExternalString.order_eq (h (by rw [hpre, hpre']; rfl) hpre)
  · rfl
  · rfl
  · have hempty : v.tag.pre.isEmpty = false := by simpa [Tag.hasPre] using hpre
    have hempty' : v'.tag.pre.isEmpty = false := by simpa [Tag.hasPre] using hpre'
    simp only [Tag.order, hempty, hempty', if_true, Bool.not_true, Bool.not_false, Bool.and_self, Bool.false_eq_true,
      if_false]
    exact Tag.orderParts_eq _ _

theorem order_eq {v v' : Version} {buf : List UInt8} (h : v.Agree v' buf) : v.order v' buf = compareKeys buf v v' := by
  rw [Agree, orderWithoutTag_eq] at h
  rw [order, orderWithoutTag_eq]
  show _ = (compare v.major v'.major).then ((compare v.minor v'.minor).then ((compare v.patch v'.patch).then
    (Tag.compareKeys (v.tag.key buf) (v'.tag.key buf))))
  cases hmajor : compare v.major v'.major with
  | eq =>
    cases hminor : compare v.minor v'.minor with
    | eq =>
      cases hpatch : compare v.patch v'.patch with
      | eq => exact orderPresence_then v v' buf fun heq => h (by rw [hmajor, hminor, hpatch]; exact heq)
      | _ => rfl
    | _ => rfl
  | _ => rfl

end Version

end Funbun.Semver
