import Mathlib.Data.List.Basic
import Mathlib.Data.List.Nodup
import Mathlib.Order.Basic

/-!
# Next hops towards a target

Every place has at most one next hop.  A route follows the next hops from a
place until it comes to the target.  Since the next hop is a function, a route
never visits a place twice.  When one place gets a new next hop, all routes
survive if the route of the new hop avoids that place.
-/

namespace Minotor

/-- The route from a place to the target `o`, with the places it visits. -/
inductive Route {P : Type*} (next : P → Option P) (o : P) : P → List P → Prop where
  | arrived : Route next o o [o]
  | hop {x y : P} {path : List P} (hne : x ≠ o) (hnext : next x = some y)
      (hroute : Route next o y path) : Route next o x (x :: path)

/-- Every place that has a next hop has a route. -/
def Routed {P : Type*} (next : P → Option P) (o : P) : Prop :=
  ∀ x, (next x).isSome → ∃ path, Route next o x path

namespace Route

variable {P : Type*} {next next' : P → Option P} {o x y z : P} {path path' : List P}

theorem unique (h : Route next o x path) (h' : Route next o x path') : path = path' := by
  induction h generalizing path' with
  | arrived =>
      cases h' with
      | arrived => rfl
      | hop hne => exact absurd rfl hne
  | hop hne hnext _ ih =>
      cases h' with
      | arrived => exact absurd rfl hne
      | hop _ hnext' hroute' =>
          obtain rfl := Option.some.inj (hnext.symm.trans hnext')
          rw [ih hroute']

/-- From a visited place the route goes on to the target. -/
theorem of_mem (h : Route next o x path) (hz : z ∈ path) :
    ∃ path', Route next o z path' ∧ path' <:+ path := by
  induction h with
  | arrived =>
      obtain rfl := List.mem_singleton.mp hz
      exact ⟨_, .arrived, List.suffix_rfl⟩
  | hop hne hnext hroute ih =>
      rcases List.mem_cons.mp hz with rfl | hz
      · exact ⟨_, .hop hne hnext hroute, List.suffix_rfl⟩
      · obtain ⟨path', hroute', hsuffix⟩ := ih hz
        exact ⟨path', hroute', hsuffix.trans (List.suffix_cons _ _)⟩

/-- A route visits no place twice. -/
theorem nodup (h : Route next o x path) : path.Nodup := by
  induction h with
  | arrived => exact List.nodup_singleton _
  | hop hne hnext hroute ih =>
      rw [List.nodup_cons]
      refine ⟨?_, ih⟩
      intro hmem
      -- the route from the second visit is as long as the one from the first
      obtain ⟨path', hroute', hsuffix⟩ := hroute.of_mem hmem
      have heq := hroute'.unique (.hop hne hnext hroute)
      have hlen := hsuffix.length_le
      rw [heq, List.length_cons] at hlen
      omega

/-- What holds of the next hop of every place before the target holds along
the route. -/
theorem forall_mem {R : P → Prop} (h : Route next o x path) (hx : R x)
    (hstep : ∀ y z, y ≠ o → next y = some z → z ≠ o → R y → R z) :
    ∀ z ∈ path, z ≠ o → R z := by
  induction h with
  | arrived =>
      intro z hz hzo
      exact absurd (List.mem_singleton.mp hz) hzo
  | @hop x y _ hne hnext hroute ih =>
      intro z hz hzo
      rcases List.mem_cons.mp hz with rfl | hz
      · exact hx
      · by_cases hyo : y = o
        · subst hyo
          cases hroute with
          | arrived => exact absurd (List.mem_singleton.mp hz) hzo
          | hop hne' => exact absurd rfl hne'
        · exact ih (hstep x y hne hnext hyo hx) z hz hzo

/-- A route sees only the next hops of the places before the target. -/
theorem congr (h : Route next o x path)
    (heq : ∀ z ∈ path, z ≠ o → next' z = next z) : Route next' o x path := by
  induction h with
  | arrived => exact .arrived
  | @hop x y path hne hnext _ ih =>
      refine .hop hne ?_ (ih fun z hz => heq z (List.mem_cons_of_mem x hz))
      rw [heq x List.mem_cons_self hne]
      exact hnext

end Route

namespace Routed

variable {P : Type*} {next next' : P → Option P} {o y z : P} {path : List P}

/-- One place other than the target gets a next hop whose route avoids it. -/
theorem update (h : Routed next o) (hother : ∀ x, x ≠ z → next' x = next x)
    (hz : next' z = some y) (hzo : z ≠ o) (hroute : Route next o y path)
    (havoids : z ∉ path) : Routed next' o := by
  have hroute' : Route next' o y path := by
    apply hroute.congr
    intro x hx _
    apply hother
    rintro rfl
    exact havoids hx
  have hnew : Route next' o z (z :: path) := .hop hzo hz hroute'
  have hold : ∀ {x path}, Route next o x path → ∃ path, Route next' o x path := by
    intro x path hx
    induction hx with
    | arrived => exact ⟨_, .arrived⟩
    | @hop x _ _ hne hnext _ ih =>
        by_cases hxz : x = z
        · rw [hxz]
          exact ⟨_, hnew⟩
        · obtain ⟨path', hpath'⟩ := ih
          exact ⟨_, .hop hne ((hother x hxz).trans hnext) hpath'⟩
  intro x hx
  by_cases hxz : x = z
  · rw [hxz]
    exact ⟨_, hnew⟩
  · rw [hother x hxz] at hx
    obtain ⟨path', hpath'⟩ := h x hx
    exact hold hpath'

/-- A place gets the target itself as its next hop. -/
theorem update_direct (h : Routed next o) (hother : ∀ x, x ≠ z → next' x = next x)
    (hz : next' z = some o) : Routed next' o := by
  by_cases hzo : z = o
  · -- the next hop of the target is on no route
    intro x hx
    by_cases hxo : x = o
    · rw [hxo]
      exact ⟨_, .arrived⟩
    · rw [hother x (hzo ▸ hxo)] at hx
      obtain ⟨path, hpath⟩ := h x hx
      exact ⟨path, hpath.congr fun w _ hw => hother w (hzo ▸ hw)⟩
  · apply h.update hother hz hzo .arrived
    rw [List.mem_singleton]
    exact hzo

end Routed
end Minotor
