import Funbun.Install.Resolution
import Funbun.Semver.VersionOrder

/-! Resolutions are ordered by keys, as long as builds with one hash are one build. -/
namespace Funbun.Install
open Semver Library.Descending Std

/-! ### Resolutions -/

namespace Resolution

def payload (buf : List UInt8) : Resolution → Version ⊕ List (List UInt8)
  | npm v => .inl v
  | localTarball s | folder s | remoteTarball s | workspace s | symlink s | singleFileModule s => .inr [s.slice buf]
  | git p | github p => .inr [p.owner.slice buf, p.repo.slice buf, p.committish.slice buf]
  | root | uninitialized => .inr []

abbrev compareKeys (buf : List UInt8) : Resolution → Resolution → Ordering :=
  compareLex (compareOn tag) (comparing (payload buf) (compareSum (Version.compareKeys buf) compare))

/-- Of versions, what their order rests on -/
def Agree (buf : List UInt8) : Resolution → Resolution → Prop
  | npm v, npm v' => v.Agree v' buf
  | _, _ => True

theorem compare_singleton (s s' : List UInt8) : compare [s] [s'] = compare s s' := by
  show List.compareLex compare [s] [s'] = _
  rw [List.compareLex_cons_cons]
  cases compare s s' <;> rfl

theorem repository_order_eq (p p' : Repository) (buf : List UInt8) : p.order p' buf =
    compare [p.owner.slice buf, p.repo.slice buf, p.committish.slice buf]
      [p'.owner.slice buf, p'.repo.slice buf, p'.committish.slice buf] := by
  show _ = List.compareLex compare _ _
  rw [Repository.order, List.compareLex_cons_cons, List.compareLex_cons_cons, SemverString.order, SemverString.order]
  cases compare (p.owner.slice buf) (p'.owner.slice buf) with
  | eq =>
    cases compare (p.repo.slice buf) (p'.repo.slice buf) with
    | eq => exact (compare_singleton _ _).symm
    | _ => rfl
  | _ => rfl

theorem order_eq {r r' : Resolution} {buf : List UInt8} (h : Agree buf r r') : r.order r' buf = compareKeys buf r r' := by
  by_cases htag : r.tag = r'.tag
  · have hsame : compareOn tag r r' = .eq := by
      rw [compareOn, htag, ReflOrd.compare_self]
    rw [compareKeys, compareLex, hsame]
    cases r with
    | npm v =>
      cases r' with
      | npm v' => exact Version.order_eq h
      | _ => exact absurd htag (by simp [tag])
    | git p =>
      cases r' with
      | git p' => exact repository_order_eq p p' buf
      | _ => exact absurd htag (by simp [tag])
    | github p =>
      cases r' with
      | github p' => exact repository_order_eq p p' buf
      | _ => exact absurd htag (by simp [tag])
    | root | uninitialized => cases r' <;> first | rfl | exact absurd htag (by simp [tag])
    | _ => cases r' <;> first | exact (compare_singleton _ _).symm | exact absurd htag (by simp [tag])
  · have hdiffer : compareOn tag r r' ≠ .eq := fun heq => htag (LawfulEqOrd.eq_of_compare heq)
    have horder : r.order r' buf = compare r.tag r'.tag := by
      cases r <;> cases r' <;> first | rfl | exact absurd rfl htag
    rw [horder, compareKeys, compareLex]
    show compareOn tag r r' = _
    cases hcompare : compareOn tag r r' with
    | eq => exact absurd hcompare hdiffer
    | _ => rfl

end Resolution

end Funbun.Install
