import Mathlib.Data.List.Basic
import Mathlib.Order.Basic

/-!
# Tilings of an initial segment by closed intervals

`Tiles s gs t` says that the closed intervals of `gs` follow one another without
gap from `s` up to `t`. `mergeFrom ends n` cuts `[0,n)` into the smallest such
intervals that no span `i .. ends i` crosses: a left-to-right sweep that moves
the right end of the open interval while it still meets spans.
-/

set_option autoImplicit false

namespace Maple.Tiling

open List

def Tiles : ℕ → List (ℕ × ℕ) → ℕ → Prop
  | s, [], t => s = t
  | s, g::gs, t => g.1 = s ∧ g.1 ≤ g.2 ∧ Tiles (g.2+1) gs t

/-- No interval of `gs` reaches across the point `c`. -/
def Cut (gs : List (ℕ × ℕ)) (c : ℕ) : Prop := ∀ g ∈ gs, g.2 < c ∨ c ≤ g.1

variable {t : ℕ} {gs : List (ℕ × ℕ)}

theorem tiles_le (s : ℕ) (h : Tiles s gs t) : s ≤ t := by
  induction gs generalizing s with
  | nil => exact Nat.le_of_eq h
  | cons g gs ih =>
    obtain ⟨h1,h2,h3⟩ := h
    have := ih _ h3
    omega

variable {g : ℕ × ℕ}

theorem tiles_bounds (s : ℕ) (h : Tiles s gs t) (hg : g ∈ gs) : s ≤ g.1 ∧ g.1 ≤ g.2 ∧ g.2 < t := by
  induction gs generalizing s with
  | nil => simp at hg
  | cons a gs ih =>
    obtain ⟨h1,h2,h3⟩ := h
    have hle := tiles_le _ h3
    rcases mem_cons.mp hg with rfl | hg
    · omega
    · have := ih _ h3 hg
      omega

theorem tiles_cover (s t : ℕ) (gs : List (ℕ × ℕ)) (h : Tiles s gs t) (i : ℕ) (hs : s ≤ i)
    (ht : i < t) : ∃ g ∈ gs, g.1 ≤ i ∧ i ≤ g.2 := by
  induction gs generalizing s with
  | nil =>
    have : s = t := h
    omega
  | cons a gs ih =>
    obtain ⟨h1,h2,h3⟩ := h
    by_cases hi : i ≤ a.2
    · exact ⟨a,mem_cons_self,by omega,hi⟩
    · obtain ⟨g,hg,hgi⟩ := ih _ h3 (by omega)
      exact ⟨g,mem_cons_of_mem _ hg,hgi⟩

theorem tiles_cut (s : ℕ) (h : Tiles s gs t) (hg : g ∈ gs) : Cut gs g.1 ∧ Cut gs (g.2+1) := by
  induction gs generalizing s with
  | nil => simp at hg
  | cons a gs ih =>
    obtain ⟨h1,h2,h3⟩ := h
    rcases mem_cons.mp hg with rfl | hg
    · constructor
      · intro b hb
        rcases mem_cons.mp hb with rfl | hb
        · exact Or.inr (Nat.le_refl _)
        · have := tiles_bounds _ h3 hb
          omega
      · intro b hb
        rcases mem_cons.mp hb with rfl | hb
        · exact Or.inl (Nat.lt_succ_self _)
        · exact Or.inr (tiles_bounds _ h3 hb).1
    · obtain ⟨hc1,hc2⟩ := ih _ h3 hg
      have hb := tiles_bounds _ h3 hg
      constructor
      · intro b hb'
        rcases mem_cons.mp hb' with rfl | hb'
        · omega
        · exact hc1 b hb'
      · intro b hb'
        rcases mem_cons.mp hb' with rfl | hb'
        · omega
        · exact hc2 b hb'

variable {s : ℕ}

theorem tiles_unique (h : Tiles s gs t) {g' : ℕ × ℕ} (hg : g ∈ gs) (hg' : g' ∈ gs) {i : ℕ}
    (hi : g.1 ≤ i ∧ i ≤ g.2) (hi' : g'.1 ≤ i ∧ i ≤ g'.2) : g = g' := by
  have hc := tiles_cut s h hg
  have hc' := tiles_cut s h hg'
  have h1 := hc.1 g' hg'
  have h2 := hc.2 g' hg'
  have h3 := hc'.1 g hg
  have h4 := hc'.2 g hg
  exact Prod.ext (by omega) (by omega)

theorem tiles_end_cut (h : Tiles s gs t) : Cut gs s ∧ Cut gs t :=
  ⟨fun _ hg => Or.inr (tiles_bounds s h hg).1,
    fun _ hg => Or.inl (tiles_bounds s h hg).2.2⟩

/-- Below a cut lie exactly the intervals that end before it. -/
theorem tiles_below {c i : ℕ} (h : Tiles s gs t) (hc : Cut gs c) (ht : c ≤ t) (hi : s ≤ i) :
    i < c ↔ ∃ g ∈ gs, g.2 < c ∧ g.1 ≤ i ∧ i ≤ g.2 := by
  constructor
  · intro hlt
    obtain ⟨g,hg,h1,h2⟩ := tiles_cover s t gs h i hi (by omega)
    refine ⟨g,hg,?_,h1,h2⟩
    have := hc g hg
    omega
  · rintro ⟨g,-,hlt,-,hle⟩
    omega

theorem tiles_head (h : Tiles s gs t) (g : ℕ × ℕ) (hg : gs[0]? = some g) : g.1 = s := by
  cases gs with
  | nil => simp at hg
  | cons a gs =>
    cases hg
    exact h.1

theorem tiles_next (s : ℕ) (i : ℕ) (h : Tiles s gs t) (a b : ℕ × ℕ) (ha : gs[i]? = some a)
    (hb : gs[i+1]? = some b) : b.1 = a.2+1 := by
  induction gs generalizing s i with
  | nil => simp at ha
  | cons g gs ih =>
    cases i with
    | zero =>
      cases ha
      exact tiles_head h.2.2 b (by simpa using hb)
    | succ i => exact ih _ i h.2.2 (by simpa using ha) (by simpa using hb)

theorem tiles_order (s : ℕ) (i j : ℕ) (h : Tiles s gs t) (a b : ℕ × ℕ) (ha : gs[i]? = some a)
    (hb : gs[j]? = some b) (hij : i < j) : a.2 < b.1 := by
  induction gs generalizing s i j with
  | nil => simp at ha
  | cons g gs ih =>
    obtain ⟨j,rfl⟩ : ∃ k, j = k+1 := ⟨j-1,by omega⟩
    rw [List.getElem?_cons_succ] at hb
    cases i with
    | zero =>
      cases ha
      have := (tiles_bounds _ h.2.2 (List.mem_of_getElem? hb)).1
      omega
    | succ i => exact ih _ i j h.2.2 (by simpa using ha) hb (by omega)

theorem tiles_last (s : ℕ) (h : Tiles s gs t) : t = gs.getLast?.elim s (fun g => g.2+1) := by
  induction gs generalizing s with
  | nil => exact Eq.symm h
  | cons a gs ih =>
    have := ih _ h.2.2
    cases gs with
    | nil => exact this
    | cons b gs =>
      rw [List.getLast?_cons_cons, List.getLast?_cons, Option.elim_some]
      rwa [List.getLast?_cons, Option.elim_some] at this

theorem tiles_pairwise (s : ℕ) (h : Tiles s gs t) : gs.Pairwise (fun a b => a.2 < b.1) := by
  induction gs generalizing s with
  | nil => exact List.Pairwise.nil
  | cons g gs ih =>
    refine pairwise_cons.mpr ⟨fun b hb => ?_,ih _ h.2.2⟩
    exact (tiles_bounds _ h.2.2 hb).1

/-- The pieces of a list that tiles cut out, put together. -/
theorem tiles_concat {α : Type*} (l : List α) (s : ℕ) (h : Tiles s gs t) :
    gs.flatMap (fun g => (l.drop g.1).take (g.2+1-g.1)) = (l.drop s).take (t-s) := by
  induction gs generalizing s with
  | nil =>
    rw [show t = s from h.symm, Nat.sub_self]
    rfl
  | cons g gs ih =>
    obtain ⟨rfl,hle,hrest⟩ := h
    have hlt := tiles_le _ hrest
    have hlength : t-g.1 = (g.2+1-g.1)+(t-(g.2+1)) := by omega
    have hdrop : l.drop (g.2+1) = (l.drop g.1).drop (g.2+1-g.1) := by
      rw [drop_drop, Nat.add_sub_cancel' (by omega)]
    rw [flatMap_cons, ih _ hrest, hlength, take_add, hdrop]

/-- The inner sweep: `stop` grows to the furthest end of a span met so far. -/
def sweep (ends : ℕ → ℕ) : ℕ → ℕ → ℕ → ℕ
  | 0, _, stop => stop
  | fuel+1, cursor, stop =>
    if cursor ≤ stop then sweep ends fuel (cursor+1) (max stop (ends cursor)) else stop

def mergeLoop (ends : ℕ → ℕ) (n : ℕ) : ℕ → ℕ → List (ℕ × ℕ)
  | 0, _ => []
  | fuel+1, start =>
    if start < n then
      (start, sweep ends n start (ends start))::
        mergeLoop ends n fuel (sweep ends n start (ends start)+1)
    else []

def mergeFrom (ends : ℕ → ℕ) (n : ℕ) : List (ℕ × ℕ) := mergeLoop ends n n 0

section Merge
variable (ends : ℕ → ℕ) (n : ℕ)

theorem le_sweep (fuel cursor stop : ℕ) : stop ≤ sweep ends fuel cursor stop := by
  induction fuel generalizing cursor stop with
  | zero => exact Nat.le_refl _
  | succ fuel ih =>
    unfold sweep
    split_ifs
    · exact Nat.le_trans (Nat.le_max_left _ _) (ih _ _)
    · exact Nat.le_refl _

theorem sweep_lt (hends : ∀ i, i < n → ends i < n) (fuel cursor stop : ℕ) (hs : stop < n) :
    sweep ends fuel cursor stop < n := by
  induction fuel generalizing cursor stop with
  | zero => exact hs
  | succ fuel ih =>
    unfold sweep
    split_ifs with hc
    · exact ih _ _ (Nat.max_lt.mpr ⟨hs,hends _ (by omega)⟩)
    · exact hs

variable {i : ℕ}

theorem sweep_closed (hends : ∀ i, i < n → ends i < n) {fuel : ℕ} (cursor stop : ℕ) (hs : stop < n)
    (hf : n ≤ cursor+fuel) (hc : cursor ≤ i) (hi : i ≤ sweep ends fuel cursor stop) :
    ends i ≤ sweep ends fuel cursor stop := by
  induction fuel generalizing cursor stop with
  | zero =>
    simp only [sweep] at hi
    omega
  | succ fuel ih =>
    unfold sweep at hi ⊢
    split_ifs at hi ⊢ with hle
    · have hmax : max stop (ends cursor) < n := Nat.max_lt.mpr ⟨hs,hends _ (by omega)⟩
      by_cases heq : i = cursor
      · subst heq
        exact Nat.le_trans (Nat.le_max_right _ _) (le_sweep ends fuel _ _)
      · exact ih _ _ hmax (by omega) (by omega) hi
    · omega

theorem mergeLoop_tiles (hends : ∀ i, i < n → i ≤ ends i ∧ ends i < n) (fuel start : ℕ)
    (hs : start ≤ n) (hf : n ≤ start+fuel) : Tiles start (mergeLoop ends n fuel start) n := by
  induction fuel generalizing start with
  | zero => exact Nat.le_antisymm hs hf
  | succ fuel ih =>
    unfold mergeLoop
    split_ifs with hlt
    · have hend := hends start hlt
      have hle := le_sweep ends n start (ends start)
      have hlt' := sweep_lt ends n (fun i hi => (hends i hi).2) n start (ends start) hend.2
      exact ⟨rfl,Nat.le_trans hend.1 hle,ih _ (by omega) (by omega)⟩
    · have : start = n := by omega
      exact this

theorem mergeLoop_closed (hends : ∀ i, i < n → ends i < n) {fuel : ℕ} (start : ℕ) {g : ℕ × ℕ}
    (hg : g ∈ mergeLoop ends n fuel start) (hi : g.1 ≤ i ∧ i ≤ g.2) : ends i ≤ g.2 := by
  induction fuel generalizing start with
  | zero => simp [mergeLoop] at hg
  | succ fuel ih =>
    unfold mergeLoop at hg
    split_ifs at hg with hlt
    · rcases mem_cons.mp hg with rfl | hg
      · exact sweep_closed ends n hends start _ (hends start hlt) (by omega) hi.1 hi.2
      · exact ih _ hg
    · simp at hg

/-- The merged intervals tile `[0,n)`. -/
theorem mergeFrom_tiles (hends : ∀ i, i < n → i ≤ ends i ∧ ends i < n) :
    Tiles 0 (mergeFrom ends n) n :=
  mergeLoop_tiles ends n hends n 0 (Nat.zero_le _) (by omega)

/-- No span leaves the interval it starts in. -/
theorem mergeFrom_closed (hends : ∀ i, i < n → ends i < n) {g : ℕ × ℕ} (hg : g ∈ mergeFrom ends n)
    (hi : g.1 ≤ i ∧ i ≤ g.2) : ends i ≤ g.2 :=
  mergeLoop_closed ends n hends 0 hg hi

theorem mergeLoop_cut {c : ℕ} (hc : ∀ i, i < c → ends i < c) (fuel start : ℕ) :
    Cut (mergeLoop ends n fuel start) c := by
  induction fuel generalizing start with
  | zero => exact fun g hg => absurd hg not_mem_nil
  | succ fuel ih =>
    unfold mergeLoop
    split_ifs
    · intro g hg
      rcases mem_cons.mp hg with rfl | hg
      · by_cases hs : start < c
        · exact Or.inl (sweep_lt ends c hc n start _ (hc start hs))
        · exact Or.inr (Nat.not_lt.mp hs)
      · exact ih _ g hg
    · exact fun g hg => absurd hg not_mem_nil

/-- A point that no span crosses is a cut. -/
theorem mergeFrom_cut {c : ℕ} (hc : ∀ i, i < c → ends i < c) : Cut (mergeFrom ends n) c :=
  mergeLoop_cut ends n hc n 0

end Merge

end Maple.Tiling
