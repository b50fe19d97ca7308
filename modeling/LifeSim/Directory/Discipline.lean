import LifeSim.Directory.Replies
import LifeSim.Directory.Rest

/-!
# One request at a time

The requests for a line wait in a queue. Only the one at the front is worked on, the others are as they arrived, and
every request gets one reply, in the order of arrival. A limited directory that has no room for a reader asks one of the
sharers to leave, but goes on with the read whichever `INV_REP` comes next. If another sharer has left, the read is
answered while the `INV_REQ` is still on its way, and when it arrives the cache may have the line for itself.
-/

namespace LifeSim.Directory

open LifeSim.Lib DirMsg LlcMsg State

variable {n : ℕ} {V : Type}

/-- Something is delivered, and it is no unexpected `INV_REP`. -/
def Event.Proceeds (s : State n V) (ev : Event n V) : Prop := ev.Delivers s ∧ ev.Expected s

section Deliveries

variable {s : State n V} {cfg : Config n}

/-- Where a read is refused, the sharer that was asked has a message on its way in one direction. -/
theorem Sound.victim_moves (h : Sound cfg s) {f : ShmemReq n} {rest : List (ShmemReq n)} (hq : s.queue = f :: rest)
    (href : s.refused f = true) : ∃ x, f.victim = some x ∧ ((s.llc x).tx ≠ [] ∨ (s.llc x).rx ≠ []) := by
  have hpend := h.alive.pending hq
  have hr := href
  simp only [refused, Bool.and_eq_true, Bool.not_eq_true', decide_eq_true_eq] at hr
  obtain ⟨⟨⟨hk, hw⟩, hf⟩, hd⟩ := hr
  obtain ⟨x, hx⟩ := hpend.waits hw
  have hwb : s.waitsForWb f x = false := by simp [waitsForWb, hd, hf, DirectoryState.isOwned]
  have hx' : s.demands f x = true := hx.resolve_right (by simp [hwb])
  have hvictim : f.victim = some x := by
    simp only [demands, hk, href, if_true, Bool.true_and, Bool.and_eq_true, decide_eq_true_eq] at hx'
    exact hx'.2
  refine ⟨x, hvictim, ?_⟩
  by_contra hnone
  obtain ⟨htx, hrx⟩ := not_or.mp hnone
  have hleaves := (hpend.prompts x).leaves hx'
  simp [not_not.mp htx, Llc.hot, not_not.mp hrx] at hleaves

/-- As long as something is under way, something that is expected can be delivered. -/
theorem Sound.quiet (h : Sound cfg s) (hnone : ∀ ev : Event n V, ¬ ev.Proceeds s) : Quiet s := by
  intro ev hd
  have hexp : ¬ ev.Expected s := fun hexp => hnone ev ⟨hd, hexp⟩
  cases ev with
  | toDir x env =>
    have hne : ¬ s.expects x = true := hexp
    unfold expects at hne
    split at hne
    · rename_i f rest tx hq htx
      have href : s.refused f = true := by
        by_contra hr
        simp [hr] at hne
      obtain ⟨y, hy, hmoves⟩ := h.victim_moves hq href
      rcases hmoves with hty | hry
      · refine hnone (.toDir y env) ⟨hty, ?_⟩
        change s.expects y = true
        unfold expects
        rw [hq]
        split <;> simp_all
      · exact hnone (.toLlc y) ⟨hry, trivial⟩
    · exact hne rfl
  | access x a => exact hd
  | evict x => exact hd
  | toLlc x => exact hexp trivial
  | dram => exact hexp trivial
  | fromDram env => exact hexp trivial
  | nullify x env => exact hd
  | evictNuca => exact hd

end Deliveries

section Runs

variable {cfg : Config n} (hplace : cfg.HasPlace) (hset : cfg.SetsForwarder)
include hplace hset

theorem Sound.step_ok {s s' : State n V} (h : Sound cfg s) {ev : Event n V} (hexp : ev.Expected s)
    (hok : (machine n V cfg).step s ev = .ok s') : Sound cfg s' :=
  (h.step hplace hset (spares_of_ok hok) hexp).of_ok hok

variable {v : V} {es : List (Event n V)}
  (hes : (machine n V cfg).Guarded (fun s ev => ev.Expected s) (initial v) es)
include hes

omit hes

/-- Expected deliveries leave less and less to do. -/
theorem Sound.proceeds_less {s s' : State n V} (h : Sound cfg s) {ev : Event n V} (hd : ev.Proceeds s)
    (hok : (machine n V cfg).step s ev = .ok s') : Sound cfg s' ∧ s'.toDo < s.toDo :=
  ⟨h.step_ok hplace hset hd.2 hok, delivery_less hplace h hd.1 hd.2 hok⟩

theorem Sound.not_forever {s : State n V} (h : Sound cfg s) :
    ¬ ∃ t : ℕ → State n V, t 0 = s ∧ ∀ i, ∃ ev : Event n V, ev.Proceeds (t i) ∧
      (machine n V cfg).step (t i) ev = .ok (t (i + 1)) := by
  rintro ⟨t, rfl, hall⟩
  exact (machine n V cfg).not_forever State.toDo (fun _ _ _ hs hd hok => hs.proceeds_less hplace hset hd hok) h hall

end Runs

end LifeSim.Directory
