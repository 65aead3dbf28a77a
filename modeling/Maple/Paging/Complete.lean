import Maple.Lib.Keyset
import Maple.Paging.History
import Maple.Timeline.Value

/-!
# Paging is complete

While the visible rows of a task stay, a reader that follows the cursors of its
pages reads them all, each once and in order. The pages are those of a keyset
reader over the ordered rows: a page takes a lead of what follows the last row
read, and its cursor names the last row it took.
-/

set_option autoImplicit false

namespace Maple.Paging.Complete

open Session.Entries Fitting History Keyset
open List hiding after

def identityOf (epoch : ℤ) (row : StoredRow) : ℤ × ℤ × ℤ := (epoch, row.rowSeq, row.updateSeq)

def precedes : Direction → StoredRow → StoredRow → Prop
  | .before, a, b => b.rowSeq < a.rowSeq
  | .forward, a, b => a.rowSeq < b.rowSeq

instance (direction : Direction) : DecidableRel (precedes direction) := by
  intro a b
  cases direction <;> unfold precedes <;> infer_instance

def readIn {α : Type} : Direction → List α → List α
  | .before, rows => rows.reverse
  | .forward, rows => rows

/-- The task is in the given epoch and its visible rows, in row order, are `rows`. -/
structure Steady (epoch : ℤ) (rows : List StoredRow) (task : TaskState) : Prop where
  epoch : task.epoch = epoch
  visible : task.visible.insertionSort Direction.forward.inOrder = rows

/-- Rows are numbered from one on, each number once. -/
structure Numbered (rows : List StoredRow) : Prop where
  ordered : rows.Pairwise (fun a b => a.rowSeq < b.rowSeq)
  first : ∀ row ∈ rows, 1 ≤ row.rowSeq
  bounded : ∀ row ∈ rows, row.rowSeq < i64Max

theorem precedes_trans (direction : Direction) (a b c : StoredRow) (hab : precedes direction a b)
    (hbc : precedes direction b c) : precedes direction a c := by
  cases direction with
  | before => exact Int.lt_trans hbc hab
  | forward => exact Int.lt_trans hab hbc

theorem precedes_irrefl (direction : Direction) (a : StoredRow) : ¬precedes direction a a := by
  cases direction <;> exact Int.lt_irrefl _

theorem readIn_ordered (direction : Direction) (rows : List StoredRow)
    (h : rows.Pairwise (fun a b => a.rowSeq < b.rowSeq)) :
    (readIn direction rows).Pairwise (precedes direction) := by
  cases direction with
  | before => exact pairwise_reverse.mpr h
  | forward => exact h

theorem beyond_precedes (direction : Direction) (x y : StoredRow) :
    direction.beyond x.rowSeq y = decide (precedes direction x y) := by
  cases direction <;> rfl

theorem beyond_outset (direction : Direction) {rows : List StoredRow} (hn : Numbered rows)
    (row : StoredRow) (h : row ∈ rows) : direction.beyond direction.outset row = true := by
  cases direction with
  | before => exact decide_eq_true (hn.bounded row h)
  | forward =>
    have := hn.first row h
    exact decide_eq_true (show 0 < row.rowSeq by omega)

theorem numbered_unique {rows : List StoredRow} (hn : Numbered rows) {a b : StoredRow}
    (ha : a ∈ rows) (hb : b ∈ rows) (h : a.rowSeq = b.rowSeq) : a = b := by
  have hnodup : (rows.map StoredRow.rowSeq).Nodup := by
    rw [List.Nodup, pairwise_map]
    exact hn.ordered.imp (fun h => ne_of_lt h)
  exact inj_on_of_nodup_map hnodup ha hb h

section Query
variable (epoch : ℤ) (rows : List StoredRow) (hn : Numbered rows) (task : TaskState)
variable (hs : Steady epoch rows task)
include hs

theorem visible_perm : task.visible.Perm rows :=
  (perm_insertionSort _ _).symm.trans (by rw [hs.visible])

include hn

/-- The query returns the rows beyond the boundary in the direction's order. -/
theorem candidates_eq (direction : Direction) (boundary : ℤ) (limit : ℕ) :
    candidates task direction boundary limit =
      ((readIn direction rows).filter (direction.beyond boundary)).take limit := by
  unfold candidates
  congr 1
  have hperm : (readIn direction rows).Perm rows := by
    cases direction with
    | before => exact reverse_perm rows
    | forward => exact List.Perm.refl _
  have htotal : Std.Total direction.inOrder := by
    constructor
    intro a b
    cases direction <;> exact Int.le_total _ _
  have htrans : IsTrans StoredRow direction.inOrder := by
    constructor
    intro a b c hab hbc
    cases direction with
    | before => exact Int.le_trans hbc hab
    | forward => exact Int.le_trans hab hbc
  have hsorted : ((readIn direction rows).filter (direction.beyond boundary)).Pairwise
      direction.inOrder := by
    refine ((readIn_ordered direction rows hn.ordered).imp ?_).filter _
    intro a b hab
    cases direction <;> exact Int.le_of_lt hab
  refine List.Perm.eq_of_pairwise ?_ (pairwise_insertionSort _ _) hsorted ?_
  · intro a b ha hb hab hba
    have hseq : a.rowSeq = b.rowSeq := by
      cases direction with
      | before => exact Int.le_antisymm hba hab
      | forward => exact Int.le_antisymm hab hba
    have ha' : a ∈ rows := (visible_perm epoch rows task hs).mem_iff.mp
      (mem_of_mem_filter ((mem_insertionSort _).mp ha))
    have hb' : b ∈ rows := hperm.mem_iff.mp (mem_of_mem_filter hb)
    exact numbered_unique hn ha' hb' hseq
  · exact ((perm_insertionSort _ _).trans
      ((visible_perm epoch rows task hs).filter _)).trans (hperm.symm.filter _)

/-- The rows behind the last row read. -/
theorem candidates_after (direction : Direction) (last : Option StoredRow) (limit : ℕ) :
    candidates task direction ((last.map StoredRow.rowSeq).getD direction.outset) limit =
      (after (precedes direction) (readIn direction rows) last).take limit := by
  rw [candidates_eq epoch rows hn task hs]
  congr 1
  cases last with
  | none =>
    rw [Option.map_none, Option.getD_none, after, filter_eq_self]
    intro row hrow
    refine beyond_outset direction hn row ?_
    cases direction with
    | before => exact mem_reverse.mp hrow
    | forward => exact hrow
  | some x =>
    rw [Option.map_some, Option.getD_some, after]
    exact filter_congr (fun y _ => beyond_precedes direction x y)

end Query

/-- The page `out` is `page` with a lead of the candidates, and something unless there is
nothing; the flag says whether candidates are left. -/
def Takes (epoch : ℤ) (limit : ℕ) (rows : List StoredRow) (page out : List TimelineRow)
    (more : Bool) : Prop :=
  ∃ taken left, rows = taken++left ∧
    out.map TimelineRow.identity = page.map TimelineRow.identity++taken.map (identityOf epoch) ∧
    (more = true ↔ left ≠ []) ∧ out.length ≤ limit ∧ (rows ≠ [] → out ≠ [])

section Loop
variable (lib : Library) (epoch : ℤ) (limit budget inline : ℕ) (hlimit : 0 < limit)
include hlimit

theorem pageLoop_ok {rows : List StoredRow} (page : List TimelineRow) {out : List TimelineRow}
    (wire storedBytes : ℕ) {more : Bool} (hpage : page.length ≤ limit)
    (h : pageLoop lib epoch limit budget inline rows page wire storedBytes = .ok (out, more)) :
    Takes epoch limit rows page out more := by
  induction rows generalizing page wire storedBytes with
  | nil =>
    cases h
    exact ⟨[],[],rfl,by simp,by simp,hpage,fun hne => absurd rfl hne⟩
  | cons row rest ih =>
    have hstop : page ≠ [] → Takes epoch limit (row::rest) page page true :=
      fun hne => ⟨[],row::rest,rfl,by simp,by simp,hpage,fun _ => hne⟩
    have htake : ∀ (entry : TimelineRow) (wire storedBytes : ℕ),
        entry.identity = identityOf epoch row → page.length < limit →
        pageLoop lib epoch limit budget inline rest (page++[entry]) wire storedBytes =
          .ok (out, more) → Takes epoch limit (row::rest) page out more := by
      intro entry wire storedBytes hid hlt h
      obtain ⟨taken,left,heq,hmap,hmore,hlen,-⟩ := ih (page++[entry]) wire storedBytes
        (by rw [length_append, length_singleton]; omega) h
      refine ⟨row::taken,left,by rw [heq, cons_append],?_,hmore,hlen,fun _ hnil => ?_⟩
      · rw [hmap, map_append, append_assoc, map_singleton, hid, map_cons,
          singleton_append]
      · rw [hnil] at hmap
        simp at hmap
    unfold pageLoop at h
    split_ifs at h with hneg hfull
    · cases h
      refine hstop ?_
      rintro rfl
      simp at hfull
      omega
    have hlt : page.length < limit := by
      simp only [Bool.or_eq_true, decide_eq_true_eq, not_or] at hfull
      omega
    split at h
    · cases h
    rename_i item itemBytes _
    split at h
    · cases h
    rename_i entry itemBytes' rowBytes hfit
    obtain ⟨hid,-,-⟩ := fitRow_ok lib _ entry _ _ _ _ hfit
    split_ifs at h with hwire hfirst
    · cases h
      refine hstop ?_
      rintro rfl
      simp at hwire
    · split at h
      · cases h
      rename_i small _ smallBytes hsmall
      obtain ⟨hid',-,-⟩ := fitRow_ok lib _ small _ _ _ _ hsmall
      exact htake small _ _ (hid'.trans hid) hlt h
    · exact htake entry _ _ hid hlt h

end Loop

/-- A page over what follows the last row read: the rows it takes, and a cursor that names the
last of them if rows are left. -/
structure Serves (cursors : CursorLibrary) (account : ℤ) (uuid : String) (epoch : ℤ)
    (direction : Direction) (limit : ℕ) (behind : List StoredRow) (rows : List TimelineRow)
    (next : Option String) (taken left : List StoredRow) : Prop where
  split : behind = taken++left
  identity : (readIn direction rows).map TimelineRow.identity = taken.map (identityOf epoch)
  limited : rows.length ≤ limit
  progress : behind ≠ [] → rows ≠ []
  done : next = none → left = []
  cursor : ∀ token, next = some token → left ≠ [] ∧ ∃ last, taken.getLast? = some last ∧
    historyCursor cursors account uuid direction epoch last.rowSeq = .ok token

section Request
variable (lib : Library) (cursors : CursorLibrary) (account : ℤ) (uuid : String) (epoch : ℤ)
variable (rows : List StoredRow) (hn : Numbered rows) (direction : Direction)

theorem nextCursor_ok {page : List TimelineRow} {more : Bool} {next : Option String}
    (hmore : more = true → page ≠ [])
    (h : nextCursor cursors account uuid direction epoch page more = .ok next) :
    (next = none → more = false) ∧ ∀ token, next = some token → more = true ∧
      ∃ last, page.getLast? = some last ∧
        historyCursor cursors account uuid direction epoch last.rowSeq = .ok token := by
  unfold nextCursor at h
  split at h
  · rename_i last hlast
    split at h
    · cases h
    · rename_i token' htoken
      cases h
      refine ⟨fun hnone => (nomatch hnone),fun token ht => ⟨rfl,last,hlast,?_⟩⟩
      cases ht
      exact htoken
  · rename_i hnot
    cases h
    refine ⟨fun _ => ?_,fun token ht => (nomatch ht)⟩
    rw [Bool.eq_false_iff]
    intro htrue
    exact hnot _ htrue (List.getLast?_eq_some_getLast (hmore htrue))

theorem decodeCursor_ok {token : String} {cursor : Cursor}
    (h : decodeCursor cursors token = .ok cursor) :
    ∃ bytes, cursors.decode token = some bytes ∧ cursors.fromSlice bytes = some cursor := by
  unfold decodeCursor at h
  split_ifs at h
  split at h
  · cases h
  rename_i bytes hbytes
  split_ifs at h
  split at h
  · cases h
  rename_i found hfound
  split_ifs at h
  cases h
  exact ⟨bytes,hbytes,hfound⟩

/-- A cursor that is accepted names the row it was made for. -/
theorem cursor_position (hlaw : cursors.Lawful) {rowSeq : ℤ} {token : String}
    {position : HistoryPosition}
    (hc : historyCursor cursors account uuid direction epoch rowSeq = .ok token)
    (h : historyPosition cursors token account uuid direction = .ok position) :
    position = ⟨epoch,rowSeq⟩ := by
  unfold historyCursor encodeCursor at hc
  split_ifs at hc
  cases hc
  unfold historyPosition at h
  split at h
  · cases h
  rename_i cursor hcursor
  obtain ⟨bytes,hbytes,hslice⟩ := decodeCursor_ok cursors hcursor
  obtain rfl := hlaw.base64 _ bytes hbytes
  obtain rfl := hlaw.slice account uuid direction ⟨epoch, rowSeq⟩ cursor hslice
  split_ifs at h
  split at h
  · cases h
  rename_i found hfound
  split_ifs at h
  cases h
  exact hlaw.position _ position hfound

theorem validatePageLimits_pos {limit bytes maxRows maxBytes : ℕ}
    (h : validatePageLimits limit bytes maxRows maxBytes = true) : 0 < limit := by
  simp [validatePageLimits] at h
  omega

def Stands (cursor : Option String) (last : Option StoredRow) : Prop :=
  match cursor, last with
  | none, none => True
  | some token, some last =>
    historyCursor cursors account uuid direction epoch last.rowSeq = .ok token
  | _, _ => False

include hn

variable {account} {cursors} {direction} {epoch} {uuid}

theorem historyRows_ok (task : TaskState) (hs : Steady epoch rows task) (last : Option StoredRow)
    (limit budget inline : ℕ) (hlimit : 0 < limit) (page : HistoryPage)
    (h : historyRows lib cursors account uuid task direction (last.map StoredRow.rowSeq) limit
      budget inline = .ok page) :
    ∃ taken left, Serves cursors account uuid epoch direction limit
      (after (precedes direction) (readIn direction rows) last) page.rows page.next taken left := by
  unfold historyRows at h
  dsimp only at h
  rw [candidates_after epoch rows hn task hs] at h
  split at h
  · cases h
  rename_i out more hloop
  split at h
  · cases h
  rename_i next hnext
  cases h
  rw [hs.epoch] at hloop hnext
  obtain ⟨taken,left,hsplit,hmap,hmore,hlen,hsome⟩ := pageLoop_ok lib epoch limit budget inline
    hlimit [] 2 0 (Nat.zero_le _) hloop
  rw [map_nil, nil_append] at hmap
  generalize hbehind : after (precedes direction) (readIn direction rows) last = behind at *
  have htaken : taken.length ≤ limit := by
    rw [← length_map (f := identityOf epoch), ← hmap, length_map]
    exact hlen
  -- one candidate more than the limit is asked for, so nothing left means nothing beyond
  have hrest : behind = taken++(left++behind.drop (limit+1)) := by
    rw [← append_assoc, ← hsplit, take_append_drop]
  have hdrop : left = [] → behind.drop (limit+1) = [] := by
    intro hnil
    rw [hnil, append_nil] at hsplit
    rw [drop_eq_nil_iff]
    have := congrArg List.length hsplit
    rw [length_take] at this
    omega
  have hne : behind ≠ [] → out ≠ [] := by
    intro hb
    refine hsome (fun htake => hb ?_)
    rcases take_eq_nil_iff.mp htake with hzero | hnil
    · omega
    · exact hnil
  have hpage : more = true → out ≠ [] := by
    intro htrue
    refine hsome ?_
    rw [hsplit]
    exact append_ne_nil_of_right_ne_nil _ (hmore.mp htrue)
  obtain ⟨hdone,hcursor⟩ := nextCursor_ok cursors account uuid epoch direction hpage hnext
  have hread : readIn direction (if direction = .before then out.reverse else out) = out := by
    cases direction with
    | before => exact reverse_reverse out
    | forward => rfl
  refine ⟨taken,_,hrest,?_,?_,?_,?_,?_⟩
  · dsimp only
    rw [hread, hmap]
  · dsimp only
    split_ifs
    · rw [length_reverse]
      exact hlen
    · exact hlen
  · intro hb
    dsimp only
    split_ifs
    · rw [Ne, reverse_eq_nil_iff]
      exact hne hb
    · exact hne hb
  · intro hnone
    have hleft : left = [] := by
      by_contra hne
      exact Bool.false_ne_true ((hdone hnone).symm.trans (hmore.mpr hne))
    rw [hleft, hdrop hleft]
    rfl
  · intro token ht
    obtain ⟨htrue,row,hrow,htoken⟩ := hcursor token ht
    refine ⟨append_ne_nil_of_left_ne_nil (hmore.mp htrue) _,?_⟩
    have hlast := congrArg List.getLast? hmap
    rw [List.getLast?_map, List.getLast?_map, hrow, Option.map_some] at hlast
    obtain ⟨x,hx,hid⟩ := Option.map_eq_some_iff.mp hlast.symm
    refine ⟨x,hx,?_⟩
    have hseq : x.rowSeq = row.rowSeq := congrArg (fun id : ℤ × ℤ × ℤ => id.2.1) hid
    rw [hseq]
    exact htoken

theorem historyPage_ok (hlaw : cursors.Lawful) {request : PageRequest} {transport : PageTransport}
    {task : TaskState} (hs : Steady epoch rows task) {last : Option StoredRow}
    (hr : request.task = uuid)
    (hc : Stands cursors account uuid epoch direction request.cursor last) {page : HistoryPage}
    (h : historyPage lib cursors account request transport direction (some task) = .ok page) :
    ∃ taken left, Serves cursors account uuid epoch direction
      (request.limitRows.getD transport.caps.defaultHistoryRows)
      (after (precedes direction) (readIn direction rows) last) page.rows page.next taken left ∧
      lib.textBytes (pageJson page) ≤ request.limitBytes.getD transport.caps.defaultHistoryBytes := by
  subst hr
  unfold historyPage at h
  dsimp only at h
  split_ifs at h with hvalid
  split at h
  · cases h
  rename_i position hposition
  have hseq : position.map HistoryPosition.rowSeq = last.map StoredRow.rowSeq := by
    cases hcursor : request.cursor with
    | none =>
      rw [hcursor] at hposition hc
      cases last with
      | none =>
        cases hposition
        rfl
      | some row => exact False.elim hc
    | some token =>
      rw [hcursor] at hposition hc
      cases last with
      | none => exact False.elim hc
      | some row =>
        dsimp only at hposition
        cases hp : historyPosition cursors token account request.task direction with
        | error e =>
          rw [hp] at hposition
          cases hposition
        | ok found =>
          rw [hp] at hposition
          cases hposition
          rw [cursor_position cursors account request.task epoch direction hlaw hc hp]
          rfl
  split_ifs at h
  split at h
  · cases h
  rename_i served hserved
  split at h
  · cases h
  rename_i len hlen
  split_ifs at h with hbytes
  cases h
  rw [hseq] at hserved
  have hlimit : 0 < request.limitRows.getD transport.caps.defaultHistoryRows := by
    simp only [Bool.or_eq_true, Bool.not_eq_true', not_or, Bool.not_eq_false] at hvalid
    exact validatePageLimits_pos hvalid.2
  obtain ⟨taken,left,hserves⟩ := historyRows_ok lib rows hn task hs last _ _ _ hlimit page hserved
  refine ⟨taken,left,hserves,?_⟩
  rw [← serializedLen_ok lib _ _ hlen]
  exact Nat.not_lt.mp hbytes

theorem openTaskPage_ok (request : PageRequest) (transport : PageTransport) (task : TaskState)
    (hs : Steady epoch rows task) (hr : request.task = uuid) (page : OpenTaskPage)
    (h : openTaskPage lib cursors account request transport (some task) = .ok page) :
    ∃ taken left, Serves cursors account uuid epoch .before
      (request.limitRows.getD (if transport = .localHost then 100 else 50))
      (readIn .before rows) page.rows page.before taken left ∧
      lib.textBytes (openJson page) ≤ request.limitBytes.getD transport.caps.defaultOpenBytes := by
  subst hr
  unfold openTaskPage at h
  dsimp only at h
  generalize request.limitRows.getD (if transport = .localHost then 100 else 50) = limit at h ⊢
  split at h
  · cases h
  rename_i hvalid
  split at h
  · cases h
  split at h
  · cases h
  rename_i summary _
  split at h
  · cases h
  split at h
  · cases h
  split at h
  · cases h
  split at h
  · cases h
  split at h
  · cases h
  split at h
  · cases h
  rename_i served hserved
  split at h
  · cases h
  rename_i len hlen
  split at h
  · cases h
  rename_i hbytes
  cases h
  have hlimit : 0 < limit := by
    simp only [Bool.or_eq_true, Bool.not_eq_true', not_or, Bool.not_eq_false] at hvalid
    exact validatePageLimits_pos hvalid.2
  obtain ⟨taken,left,hserves⟩ := historyRows_ok lib rows hn task hs none _ _ _ hlimit served hserved
  refine ⟨taken,left,hserves,?_⟩
  rw [← serializedLen_ok lib _ _ hlen]
  exact Nat.not_lt.mp hbytes

end Request

section Pages
variable (lib : Library) (cursors : CursorLibrary) (account : ℤ) (request : PageRequest)
  (transport : PageTransport) (state : Option TaskState)

def pageIn : Direction → Except StoreError HistoryPage
  | .before => historyBeforePage lib cursors account request transport state
  | .forward => historyForwardPage lib cursors account request transport state

variable {lib} {cursors} {account} {request} {transport} {state} in
theorem pageIn_ok (direction : Direction) {page : HistoryPage}
    (h : pageIn lib cursors account request transport state direction = .ok page) :
    historyPage lib cursors account request transport direction state = .ok page := by
  cases direction with
  | before =>
    unfold pageIn historyBeforePage at h
    split_ifs at h
    exact h
  | forward => exact h

end Pages

structure Served where
  request : PageRequest
  transport : PageTransport
  page : HistoryPage

/-- Requests that follow the cursors of their pages until none is returned. Each sees a task
whose epoch and visible rows are the same. -/
inductive Follows (lib : Library) (cursors : CursorLibrary) (account : ℤ) (uuid : String)
    (epoch : ℤ) (rows : List StoredRow) (direction : Direction) :
    Option String → List Served → Prop
  | last (request : PageRequest) (transport : PageTransport) (task : TaskState) (page : HistoryPage)
      (hs : Steady epoch rows task) (hr : request.task = uuid)
      (h : pageIn lib cursors account request transport (some task) direction = .ok page)
      (hnext : page.next = none) :
      Follows lib cursors account uuid epoch rows direction request.cursor
        [⟨request, transport, page⟩]
  | more (request : PageRequest) (transport : PageTransport) (task : TaskState) (page : HistoryPage)
      (token : String) (served : List Served) (hs : Steady epoch rows task)
      (hr : request.task = uuid)
      (h : pageIn lib cursors account request transport (some task) direction = .ok page)
      (hnext : page.next = some token)
      (run : Follows lib cursors account uuid epoch rows direction (some token) served) :
      Follows lib cursors account uuid epoch rows direction request.cursor
        (⟨request, transport, page⟩::served)

/-- A page keeps to its limits, and is empty only if there is no row. -/
structure Served.Kept (lib : Library) (rows : List StoredRow) (served : Served) : Prop where
  limited : served.page.rows.length ≤
    served.request.limitRows.getD served.transport.caps.defaultHistoryRows
  bytes : lib.textBytes (pageJson served.page) ≤
    served.request.limitBytes.getD served.transport.caps.defaultHistoryBytes
  some_rows : rows ≠ [] → served.page.rows ≠ []

section Follows
variable (lib : Library) (cursors : CursorLibrary) (hlaw : cursors.Lawful) (account : ℤ)
variable (uuid : String) (epoch : ℤ) (rows : List StoredRow) (hn : Numbered rows)
variable (direction : Direction)
include hlaw hn

/-- The pages of the requests are pages of the keyset reader. -/
theorem follows_pages {cursor : Option String} {served : List Served}
    (h : Follows lib cursors account uuid epoch rows direction cursor served)
    (last : Option StoredRow) (hc : Stands cursors account uuid epoch direction cursor last)
    (hleft : rows ≠ [] → after (precedes direction) (readIn direction rows) last ≠ []) :
    (∃ pages, Pages (precedes direction) (readIn direction rows) last pages ∧
      served.flatMap (fun s => (readIn direction s.page.rows).map TimelineRow.identity) =
        pages.flatten.map (identityOf epoch)) ∧
    ∀ s ∈ served, s.Kept lib rows := by
  induction h generalizing last with
  | last request transport task page hs hr h hnext =>
    obtain ⟨taken,left,hserves,hbytes⟩ := historyPage_ok lib rows hn hlaw hs hr hc
      (pageIn_ok direction h)
    have hsplit := hserves.split
    rw [hserves.done hnext, append_nil] at hsplit
    refine ⟨⟨[taken],.last last taken hsplit,?_⟩,fun s hmem => ?_⟩
    · simpa using hserves.identity
    · rw [mem_singleton.mp hmem]
      exact ⟨hserves.limited,hbytes,fun hne => hserves.progress (hleft hne)⟩
  | more request transport task page token served hs hr h hnext run ih =>
    obtain ⟨taken,left,hserves,hbytes⟩ := historyPage_ok lib rows hn hlaw hs hr hc
      (pageIn_ok direction h)
    obtain ⟨hne,x,hx,htoken⟩ := hserves.cursor token hnext
    have hafter := after_page (precedes_trans direction)
      (precedes_irrefl direction) _ taken left (readIn_ordered direction rows hn.ordered) last x
      hserves.split hx
    obtain ⟨⟨pages,hpages,hflat⟩,hkept⟩ := ih (some x) htoken (fun _ => hafter ▸ hne)
    refine ⟨⟨taken::pages,.more last taken left x pages hserves.split hx hpages,?_⟩,fun s hmem => ?_⟩
    · rw [flatMap_cons, hflat, hserves.identity, flatten_cons, map_append]
    · rcases mem_cons.mp hmem with rfl | hmem
      · exact ⟨hserves.limited,hbytes,fun hne => hserves.progress (hleft hne)⟩
      · exact hkept s hmem

/-- Following the cursors reads what lies behind the last row read. -/
theorem follows_complete (cursor : Option String) (served : List Served)
    (h : Follows lib cursors account uuid epoch rows direction cursor served)
    (last : Option StoredRow) (hc : Stands cursors account uuid epoch direction cursor last)
    (hleft : rows ≠ [] → after (precedes direction) (readIn direction rows) last ≠ []) :
    served.flatMap (fun s => (readIn direction s.page.rows).map TimelineRow.identity) =
      (after (precedes direction) (readIn direction rows) last).map (identityOf epoch) ∧
    ∀ s ∈ served, s.Kept lib rows := by
  obtain ⟨⟨pages,hpages,hflat⟩,hkept⟩ := follows_pages lib cursors hlaw account uuid epoch rows hn
    direction h last hc hleft
  refine ⟨?_,hkept⟩
  rw [hflat, pages_complete (precedes_trans direction)
    (precedes_irrefl direction) (readIn_ordered direction rows hn.ordered) hpages]

end Follows

def Continues (lib : Library) (cursors : CursorLibrary) (account : ℤ) (uuid : String) (epoch : ℤ)
    (rows : List StoredRow) : Option String → List Served → Prop
  | none, served => served = []
  | some token, served => Follows lib cursors account uuid epoch rows .before (some token) served

/-- Forwards from the first row or backwards from the newest page, the pages of a steady task
list each visible row once, in row order. -/
theorem paging_complete (lib : Library) (cursors : CursorLibrary) (hlaw : cursors.Lawful)
    (account : ℤ) (uuid : String) (epoch : ℤ) (rows : List StoredRow) (hn : Numbered rows) :
    (∀ served, Follows lib cursors account uuid epoch rows .forward none served →
      (served.flatMap (fun s => s.page.rows)).map TimelineRow.identity =
        rows.map (identityOf epoch) ∧ ∀ s ∈ served, s.Kept lib rows) ∧
    ∀ request transport task page served, Steady epoch rows task → request.task = uuid →
      openTaskPage lib cursors account request transport (some task) = .ok page →
      Continues lib cursors account uuid epoch rows page.before served →
      (served.reverse.flatMap (fun s => s.page.rows)++page.rows).map TimelineRow.identity =
        rows.map (identityOf epoch) ∧
      (page.rows.length ≤ request.limitRows.getD (if transport = .localHost then 100 else 50) ∧
        lib.textBytes (openJson page) ≤ request.limitBytes.getD transport.caps.defaultOpenBytes ∧
        (rows ≠ [] → page.rows ≠ [])) ∧
      ∀ s ∈ served, s.Kept lib rows := by
  constructor
  · intro served h
    obtain ⟨hflat,hkept⟩ := follows_complete lib cursors hlaw account uuid epoch rows hn .forward
      none served h none trivial id
    refine ⟨?_,hkept⟩
    rw [map_flatMap]
    exact hflat
  · intro request transport task page served hs hr hopen hcont
    obtain ⟨taken,left,hserves,hbytes⟩ := openTaskPage_ok lib rows hn
      request transport task hs hr page hopen
    have hrows : rows ≠ [] → rows.reverse ≠ [] := fun hne hnil => hne (reverse_eq_nil_iff.mp hnil)
    have hread : page.rows.reverse.map TimelineRow.identity++
        served.flatMap (fun s => s.page.rows.reverse.map TimelineRow.identity) =
          rows.reverse.map (identityOf epoch) ∧ ∀ s ∈ served, s.Kept lib rows := by
      cases hbefore : page.before with
      | none =>
        rw [hbefore] at hcont
        have hnil : served = [] := hcont
        have hsplit : rows.reverse = taken++left := hserves.split
        rw [hserves.done hbefore, append_nil] at hsplit
        rw [hnil, hsplit, flatMap_nil, append_nil]
        exact ⟨hserves.identity,fun s hmem => absurd hmem not_mem_nil⟩
      | some token =>
        rw [hbefore] at hcont
        obtain ⟨hne,x,hx,htoken⟩ := hserves.cursor token hbefore
        have hafter := after_page (precedes_trans .before)
          (precedes_irrefl .before) _ taken left (readIn_ordered .before rows hn.ordered) none x
          hserves.split hx
        obtain ⟨hflat,hkept⟩ := follows_complete lib cursors hlaw account uuid epoch rows hn .before
          (some token) served hcont (some x) htoken (fun _ => hafter ▸ hne)
        refine ⟨?_,hkept⟩
        rw [hafter] at hflat
        have hidentity : page.rows.reverse.map TimelineRow.identity = taken.map (identityOf epoch) :=
          hserves.identity
        have hsplit : rows.reverse = taken++left := hserves.split
        rw [hidentity, hsplit, map_append, ← hflat]
        rfl
    refine ⟨?_,⟨hserves.limited,hbytes,fun hne => hserves.progress (hrows hne)⟩,hread.2⟩
    apply reverse_injective
    rw [← map_reverse, ← map_reverse, reverse_append, map_append,
      reverse_flatMap, reverse_reverse, map_flatMap, ← hread.1]
    rfl

section Sample
open Text JsonText Delimited

def cursorFields (cursor : Cursor) : List String :=
  match cursor.scope, cursor.position with
  | .str scope, .obj [(_, .number epoch), (_, .number row)] =>
    [cursor.kind, toString cursor.account, scope, epoch, row]
  | _, _ => []

def readNumbers (epoch row : String) : Option HistoryPosition :=
  match epoch.toInt?, row.toInt? with
  | some epoch, some row => some ⟨epoch, row⟩
  | _, _ => none

def readCursor : List String → Option Cursor
  | [kind, account, scope, epoch, row] =>
    match account.toInt?, readNumbers epoch row with
    | some account, some position => some ⟨1, kind, account, .str scope, positionJson position⟩
    | _, _ => none
  | _ => none

def readPosition : Json → Option HistoryPosition
  | .obj [("epoch", .number epoch), ("row_seq", .number row)] => readNumbers epoch row
  | _ => none

/-- A cursor is a JSON array of strings, and its token has a character for each byte. The scope
of a task is the first part of its name. -/
noncomputable def jsonCursors : CursorLibrary where
  toVec := fun cursor => arrayText stringText (cursorFields cursor)
  fromSlice := fun bytes => (Function.partialInv (arrayText stringText) bytes).bind readCursor
  encode := fun bytes => String.ofList (bytes.map (fun byte => Char.ofNat byte.toNat))
  decode := fun token => some (token.toList.map (fun char => UInt8.ofNat char.toNat))
  scope := fun task => .str (String.ofList (task.toList.take 8))
  sameScope := fun left right => left.asStr = right.asStr
  fromPosition := readPosition

theorem array_injective : Function.Injective (arrayText stringText) :=
  injective_of_delimited (array_delimited string_delimited (by
    intro a rest rest' h
    simp [stringText, quoted] at h))

theorem read_cursor (account : ℤ) (task : String) (direction : Direction)
    (position : HistoryPosition) :
    jsonCursors.fromSlice (jsonCursors.toVec (jsonCursors.cursor account task direction position)) =
      some (jsonCursors.cursor account task direction position) := by
  rw [jsonCursors]
  dsimp only
  rw [Function.partialInv_left array_injective]
  simp [CursorLibrary.cursor, cursorFields, positionJson, intJson, readCursor, readNumbers]

theorem read_token (bytes : List UInt8) :
    jsonCursors.decode (jsonCursors.encode bytes) = some bytes := by
  have hbyte : ∀ byte : UInt8, UInt8.ofNat (Char.ofNat byte.toNat).toNat = byte := by
    decide +kernel
  simp [jsonCursors, Function.comp_def, hbyte]

theorem read_position (position : HistoryPosition) :
    jsonCursors.fromPosition (positionJson position) = some position := by
  simp [jsonCursors, positionJson, intJson, readPosition, readNumbers]

theorem jsonCursors_lawful : jsonCursors.Lawful where
  slice account task direction position _ h :=
    Option.some.inj (h.symm.trans (read_cursor account task direction position))
  base64 bytes _ h := Option.some.inj (h.symm.trans (read_token bytes))
  position position _ h := Option.some.inj (h.symm.trans (read_position position))

def sampleTask : String := "00000007-0000-0000-0000-000000000000"

def sampleItem (words : String) : Timeline.Item.AgentTimelineItem :=
  ⟨none, none, none, none, 0, words, "message", some "user", none, some words, none, none, none, 0,
    "replace"⟩

def sampleRow (seq : ℤ) (words : String) : StoredRow :=
  ⟨0, seq, seq, false, false, 0, (utf8 words).length, utf8 words, none⟩

def sampleRows : List StoredRow := [sampleRow 1 "one", sampleRow 2 "two", sampleRow 3 "three"]

def sampleState : TaskState :=
  ⟨0, 4, 3, some ⟨sampleTask, "Words", "/", none, "idle", "agent", none, false, none, 3, 0, 0, false⟩,
    [sampleRow 2 "two", sampleRow 3 "three", sampleRow 1 "one"]⟩

/-- A stored row has the words of its item, and sizes are those of the JSON texts. -/
def sampleLibrary : Library where
  textBytes := fun value => (Timeline.Value.text value).length
  fromValue := fun _ => none
  decodeBoundedRow := fun _ bytes =>
    match ["one", "two", "three"].find? (fun words => utf8 words = bytes) with
    | some words =>
      let size := (Timeline.Value.text (itemJson (sampleItem words))).length
      .ok (sampleItem words, size, size)
    | none => .error .invalidData

noncomputable def sampleToken (direction : Direction) : String :=
  jsonCursors.encode (jsonCursors.toVec (jsonCursors.cursor 7 sampleTask direction ⟨0, 2⟩))

theorem sample_position (direction : Direction) :
    historyPosition jsonCursors (sampleToken direction) 7 sampleTask direction = .ok ⟨0, 2⟩ := by
  have hdecode : decodeCursor jsonCursors (sampleToken direction) =
      .ok (jsonCursors.cursor 7 sampleTask direction ⟨0, 2⟩) := by
    rw [decodeCursor, if_neg (by cases direction <;> decide +kernel), sampleToken, read_token]
    dsimp only
    rw [if_neg (by cases direction <;> decide +kernel), read_cursor]
    cases direction <;> rfl
  rw [historyPosition, hdecode]
  dsimp only
  rw [if_neg (by cases direction <;> decide +kernel), CursorLibrary.cursor, read_position]
  rfl

def sampleRequest (cursor : Option String) : PageRequest := ⟨sampleTask, cursor, some 2, none⟩

theorem sample_numbered : Numbered sampleRows :=
  ⟨by decide +kernel,by decide +kernel,by decide +kernel⟩

theorem sample_steady : Steady 0 sampleRows sampleState := ⟨rfl,by decide +kernel⟩

theorem ok_of_map {α β : Type} {result : Except StoreError α} {field : α → β} {value : β}
    (h : result.toOption.map field = some value) : ∃ page, result = .ok page ∧ field page = value := by
  cases result with
  | error e => cases h
  | ok page => exact ⟨page,rfl,Option.some.inj h⟩

theorem sample_last (direction : Direction) : (pageIn sampleLibrary jsonCursors 7
    (sampleRequest (some (sampleToken direction))) .remote (some sampleState) direction).toOption.map
      HistoryPage.next = some none := by
  cases direction <;>
    simp only [pageIn, historyBeforePage, historyForwardPage, historyPage, sampleRequest,
      sample_position, Option.isNone_some, Bool.false_eq_true, if_false] <;>
    decide +kernel

theorem paging_complete_sample :
    (∃ first last, Follows sampleLibrary jsonCursors 7 sampleTask 0 sampleRows .forward none
        [first, last] ∧
      ([first, last].flatMap (fun s => s.page.rows)).map TimelineRow.identity =
        [(0, 1, 1), (0, 2, 2), (0, 3, 3)]) ∧
    ∃ page last, openTaskPage sampleLibrary jsonCursors 7 (sampleRequest none) .remote
        (some sampleState) = .ok page ∧
      Continues sampleLibrary jsonCursors 7 sampleTask 0 sampleRows page.before [last] ∧
      (last.page.rows++page.rows).map TimelineRow.identity =
        [(0, 1, 1), (0, 2, 2), (0, 3, 3)] := by
  obtain ⟨hforward,hbackward⟩ := paging_complete sampleLibrary jsonCursors jsonCursors_lawful 7
    sampleTask 0 sampleRows sample_numbered
  constructor
  · have hpage : (pageIn sampleLibrary jsonCursors 7 (sampleRequest none) .remote
        (some sampleState) .forward).toOption.map HistoryPage.next =
        some (some (sampleToken .forward)) := by decide +kernel
    obtain ⟨first,hfirst,hnext⟩ := ok_of_map hpage
    obtain ⟨last,hlast,hend⟩ := ok_of_map (sample_last .forward)
    have hrun := Follows.more (sampleRequest none) .remote sampleState first _ _ sample_steady rfl
      hfirst hnext (.last _ .remote sampleState last sample_steady rfl hlast hend)
    exact ⟨_, _, hrun, (hforward _ hrun).1⟩
  · have hopen : (openTaskPage sampleLibrary jsonCursors 7 (sampleRequest none) .remote
        (some sampleState)).toOption.map OpenTaskPage.before =
        some (some (sampleToken .before)) := by decide +kernel
    obtain ⟨page,hpage,hbefore⟩ := ok_of_map hopen
    obtain ⟨last,hlast,hend⟩ := ok_of_map (sample_last .before)
    have hrun : Continues sampleLibrary jsonCursors 7 sampleTask 0 sampleRows page.before
        [⟨sampleRequest (some (sampleToken .before)), .remote, last⟩] := by
      rw [hbefore]
      exact .last _ .remote sampleState last sample_steady rfl hlast hend
    have hread := (hbackward _ _ _ page _ sample_steady rfl hpage hrun).1
    rw [reverse_singleton, flatMap_singleton] at hread
    exact ⟨page, _, hpage, hrun, hread⟩

end Sample

end Maple.Paging.Complete
