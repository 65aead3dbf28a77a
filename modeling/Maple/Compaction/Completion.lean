import Maple.Compaction.Growth

/-!
# Completing a plan

A completed work item turns an accepted checkpoint into an accepted checkpoint
that covers exactly the new keys in addition. `HistoryStep` and `ActiveStep` are
what a work item must satisfy for that.
-/

set_option autoImplicit false

namespace Maple.Compaction.Completion
open Items Groups Coverage Plan Growth List

def Closes {V : Type} (w : SummaryWork V) : Prop :=
  (w.foldsPreviousActive || w.dropsPreviousActive) = true

structure HistoryStep {V : Type} (f : Frame) (c : CheckpointPayload) (current : ℕ)
    (w : SummaryWork V) (new : List ContextItemKey) : Prop where
  kind : w.kind = .history
  anchor : w.anchor = none
  some_new : new ≠ []
  fresh : Fresh f (coveredKeys (some c)) (fun i => i < current) new
  distinct : w.covered.Nodup
  keys : ∀ key, key ∈ w.covered ↔ key ∈ sectionKeys c.history ∨
    (Closes w ∧ key ∈ sectionKeys c.active) ∨ key ∈ new
  start : ∀ key, w.activeStart = some key → key ∈ new
  closed : Closes w → ∀ part anchor a, c.active = some part → part.anchor = some anchor →
    f.position anchor = some a → a < current
  unclosed : ¬Closes w → ∀ part anchor, c.active = some part → part.anchor = some anchor →
    anchor ∉ new

structure ActiveStep {V : Type} (f : Frame) (c : CheckpointPayload) (current : ℕ)
    (w : SummaryWork V) (new : List ContextItemKey) : Prop where
  kind : w.kind = .active
  anchor : w.anchor = some f.currentUser
  some_new : new ≠ []
  fresh : Fresh f (coveredKeys (some c)) (fun i => current < i) new
  distinct : w.covered.Nodup
  keys : ∀ key, key ∈ w.covered ↔ key ∈ sectionKeys c.active ∨ key ∈ new
  previous : ∀ part, c.active = some part → part.anchor = some f.currentUser

theorem accepted_getD {f : Frame} {checkpoint : Option CheckpointPayload} {current : ℕ}
    (ha : Accepted f checkpoint current) :
    Accepted f (some (checkpoint.getD CheckpointPayload.default)) current := by
  cases checkpoint with
  | some c => exact ha
  | none =>
    refine ⟨ha.keys,ha.position,ha.user,?_,ha.groups⟩
    rintro c ⟨⟩
    exact ⟨rfl,by simp [CheckpointPayload.default],by simp [CheckpointPayload.default],nodup_nil,
      by simp [CheckpointPayload.default],by simp [CheckpointPayload.default]⟩

theorem coveredKeys_getD (checkpoint : Option CheckpointPayload) :
    coveredKeys (some (checkpoint.getD CheckpointPayload.default)) = coveredKeys checkpoint := by
  cases checkpoint <;> rfl

section Accepted
variable {V : Type} (f : Frame) (c : CheckpointPayload) (current : ℕ)
variable (ha : Accepted f (some c) current) (w : SummaryWork V) (new : List ContextItemKey)
variable (summary : String) (hb : isBlank summary = false)
include ha

variable {current} {f}

theorem history_key {key : ContextItemKey} (hk : key ∈ sectionKeys c.history) :
    ∃ i, KeyOk f current .history none key i := by
  cases hh : c.history with
  | none => simp [hh, sectionKeys] at hk
  | some part =>
    rw [hh] at hk
    obtain ⟨-,-,-,hall⟩ := (historySection_ok f current part).mp ((ha.payload c rfl).history part hh)
    exact hall key hk

theorem active_key {key : ContextItemKey} (hk : key ∈ sectionKeys c.active) :
    ∃ part anchor a i, c.active = some part ∧ part.anchor = some anchor ∧
      f.position anchor = some a ∧ KeyOk f current .active (some a) key i := by
  cases hh : c.active with
  | none => simp [hh, sectionKeys] at hk
  | some part =>
    rw [hh] at hk
    obtain ⟨-,-,anchor,a,h1,-,h3,hall⟩ :=
      (activeSection_ok f current part).mp ((ha.payload c rfl).active part hh)
    obtain ⟨i,hi⟩ := hall key hk
    exact ⟨part,anchor,a,i,rfl,h1,h3,hi⟩

include hb

variable {summary}

theorem history_work_section (h : HistoryStep f c current w new) :
    SectionOk f current .history ⟨summary,w.covered,w.anchor⟩ := by
  refine (historySection_ok f current _).mpr ⟨hb,?_,h.anchor,?_⟩
  · obtain ⟨key,hkey⟩ := exists_mem_of_ne_nil _ h.some_new
    exact ne_nil_of_mem ((h.keys key).mpr (Or.inr (Or.inr hkey)))
  intro key hkey
  rcases (h.keys key).mp hkey with hk | ⟨hc,hk⟩ | hk
  · exact history_key c ha hk
  · obtain ⟨part,anchor,a,i,h1,h2,h3,hi⟩ := active_key c ha hk
    have hlt := h.closed hc part anchor a h1 h2 h3
    exact ⟨i,hi.position,hi.free,fun _ => hi.older a rfl hlt,by simp,by simp⟩
  · obtain ⟨i,item,hpos,hitem,hfree,hside⟩ := h.fresh.free key hk
    refine ⟨i,hpos,fun other hother => ?_,fun _ => hside,by simp,by simp⟩
    rw [hitem] at hother
    cases hother
    exact hfree

/-- A completed history summary keeps the checkpoint accepted and covers the new keys. -/
theorem complete_history (h : HistoryStep f c current w new) :
    Accepted f (some (completeWork c w summary)) current ∧
    ∀ key, key ∈ coveredKeys (some (completeWork c w summary)) ↔
      key ∈ coveredKeys (some c) ∨ key ∈ new := by
  have hc := ha.payload c rfl
  have hnext : completeWork c w summary = { c with
      history := some ⟨summary,w.covered,w.anchor⟩
      active := if w.foldsPreviousActive || w.dropsPreviousActive then none else c.active
      activeStart := w.activeStart.or c.activeStart } := by
    simp [completeWork, h.kind]
  rw [hnext]
  have hsec := history_work_section c ha w new hb h
  have hstart : ∀ key, w.activeStart.or c.activeStart = some key → key ∈ w.covered := by
    intro key hkey
    cases hw : w.activeStart with
    | some start =>
      rw [hw, Option.some_or] at hkey
      exact (h.keys key).mpr (Or.inr (Or.inr (h.start key (hw.trans hkey))))
    | none =>
      rw [hw, Option.none_or] at hkey
      exact (h.keys key).mpr (Or.inl (hc.start key hkey))
  by_cases hcl : Closes w
  · simp only [show (w.foldsPreviousActive || w.dropsPreviousActive) = true from hcl, if_true]
    have hmem : ∀ key, key ∈ w.covered ↔ key ∈ coveredKeys (some c) ∨ key ∈ new := by
      intro key
      rw [h.keys]
      simp [coveredKeys, hcl, or_assoc]
    have hcov : ∀ key, key ∈ coveredKeys (some { c with
        history := some ⟨summary,w.covered,w.anchor⟩, active := none,
        activeStart := w.activeStart.or c.activeStart }) ↔
        key ∈ coveredKeys (some c) ∨ key ∈ new := by
      intro key
      rw [← hmem]
      simp [coveredKeys, sectionKeys]
    refine ⟨⟨ha.keys,ha.position,ha.user,?_,?_⟩,hcov⟩
    · rintro d ⟨⟩
      refine ⟨hc.version,?_,by simp,by simpa [sectionKeys] using h.distinct,by simp,hstart⟩
      rintro part ⟨⟩
      exact hsec
    · intro g hg
      exact groupWhole_union (ha.groups g hg) (h.fresh.groups g hg) hcov
  · simp only [show (w.foldsPreviousActive || w.dropsPreviousActive) = false by
      simpa [Closes] using hcl, Bool.false_eq_true, if_false]
    have hmem : ∀ key, key ∈ w.covered ↔ key ∈ sectionKeys c.history ∨ key ∈ new := by
      intro key
      rw [h.keys]
      simp [hcl]
    have hcov : ∀ key, key ∈ coveredKeys (some { c with
        history := some ⟨summary,w.covered,w.anchor⟩,
        activeStart := w.activeStart.or c.activeStart }) ↔
        key ∈ coveredKeys (some c) ∨ key ∈ new := by
      intro key
      simp only [coveredKeys, mem_append]
      rw [show sectionKeys (some ⟨summary,w.covered,w.anchor⟩) = w.covered from rfl, hmem]
      tauto
    refine ⟨⟨ha.keys,ha.position,ha.user,?_,?_⟩,hcov⟩
    · rintro d ⟨⟩
      have hd := nodup_append.mp hc.distinct
      refine ⟨hc.version,?_,hc.active,?_,?_,hstart⟩
      · rintro part ⟨⟩
        exact hsec
      · refine nodup_append.mpr ⟨h.distinct,hd.2.1,?_⟩
        intro a hka b hkb hab
        subst hab
        rcases (hmem a).mp hka with hk | hk
        · exact hd.2.2 a hk a hkb rfl
        · exact h.fresh.uncovered a hk (mem_append_right _ hkb)
      · intro part anchor hp hanchor hin
        have hold := hc.anchor part anchor hp hanchor
        rcases mem_append.mp hin with hin | hin
        · rcases (hmem anchor).mp hin with hk | hk
          · exact hold (mem_append_left _ hk)
          · exact h.unclosed hcl part anchor hp hanchor hk
        · exact hold (mem_append_right _ hin)
    · intro g hg
      exact groupWhole_union (ha.groups g hg) (h.fresh.groups g hg) hcov

/-- So does a completed active summary. -/
theorem complete_active (h : ActiveStep f c current w new) :
    Accepted f (some (completeWork c w summary)) current ∧
    ∀ key, key ∈ coveredKeys (some (completeWork c w summary)) ↔
      key ∈ coveredKeys (some c) ∨ key ∈ new := by
  have hc := ha.payload c rfl
  have hd := nodup_append.mp hc.distinct
  have hnext : completeWork c w summary = { c with
      active := some ⟨summary,w.covered,w.anchor⟩ } := by
    simp [completeWork, h.kind]
  rw [hnext]
  have hcov : ∀ key, key ∈ coveredKeys (some { c with
      active := some ⟨summary,w.covered,w.anchor⟩ }) ↔
      key ∈ coveredKeys (some c) ∨ key ∈ new := by
    intro key
    simp only [coveredKeys, mem_append]
    rw [show sectionKeys (some ⟨summary,w.covered,w.anchor⟩) = w.covered from rfl, h.keys,
      or_assoc]
  refine ⟨⟨ha.keys,ha.position,ha.user,?_,?_⟩,hcov⟩
  · rintro d ⟨⟩
    refine ⟨hc.version,hc.history,?_,?_,?_,hc.start⟩
    · rintro part ⟨⟩
      refine (activeSection_ok f current _).mpr ⟨hb,?_,f.currentUser,current,h.anchor,ha.user,
        ha.position,?_⟩
      · obtain ⟨key,hkey⟩ := exists_mem_of_ne_nil _ h.some_new
        exact ne_nil_of_mem ((h.keys key).mpr (Or.inr hkey))
      intro key hkey
      rcases (h.keys key).mp hkey with hk | hk
      · obtain ⟨part,anchor,a,i,h1,h2,h3,hi⟩ := active_key c ha hk
        rw [h.previous part h1] at h2
        cases h2
        rw [ha.position] at h3
        cases h3
        exact ⟨i,hi⟩
      · obtain ⟨i,item,hpos,hitem,hfree,hside⟩ := h.fresh.free key hk
        refine ⟨i,hpos,fun other hother => ?_,by simp,?_,?_⟩
        · rw [hitem] at hother
          cases hother
          exact hfree
        · rintro a ⟨⟩
          exact hside
        · rintro a ⟨⟩ hlt
          omega
    · refine nodup_append.mpr ⟨hd.1,h.distinct,?_⟩
      intro a hka b hkb hab
      subst hab
      rcases (h.keys a).mp hkb with hk | hk
      · exact hd.2.2 a hka a hk rfl
      · exact h.fresh.uncovered a hk (mem_append_left _ hka)
    · rintro part anchor ⟨⟩ hanchor hin
      rw [h.anchor] at hanchor
      cases hanchor
      rcases (hcov f.currentUser).mp hin with hk | hk
      · exact Units.current_uncovered ha hk
      · obtain ⟨i,item,hpos,-,-,hside⟩ := h.fresh.free _ hk
        rw [ha.position] at hpos
        cases hpos
        omega
  · intro g hg
    exact groupWhole_union (ha.groups g hg) (h.fresh.groups g hg) hcov

end Accepted

end Maple.Compaction.Completion
