import Mathlib.Algebra.Ring.Nat
import Mathlib.Data.List.Nodup

/-!
# Conversation items and checkpoints

An item is known by its key. What decides how items hang together (kind, owning
response, settlement, tool call, protection) is its metadata; token estimates and
message payloads may be refreshed while the metadata stays. A checkpoint covers
items by a history summary and by one summary anchored to a user item.
-/

set_option autoImplicit false

namespace Maple.Compaction.Items

inductive ContextItemKind where
  | user
  | assistant
  | toolCall
  | toolOutput
  | reasoning
  deriving DecidableEq, Repr

abbrev Uuid := ℕ

structure ContextItemKey where
  kind : ContextItemKind
  uuid : Uuid
  deriving DecidableEq, Repr

structure ItemMeta where
  key : ContextItemKey
  responseUuid : Option Uuid
  settled : Bool
  toolCallId : Option Uuid
  protectedInput : Bool
  historicalUnmatched : Bool
  deriving DecidableEq, Repr

structure ContextItem (V : Type) extends ItemMeta where
  promptMessages : List V
  summaryMessages : List V
  estimatedTokens : ℕ
  payloadLoaded : Bool

structure Frame where
  items : List ItemMeta
  currentUser : ContextItemKey
  currentResponse : Uuid
  deriving DecidableEq, Repr

structure ContextSnapshot (V : Type) where
  instructions : List V
  instructionTokens : ℕ
  items : List (ContextItem V)
  currentUser : ContextItemKey
  currentResponse : Uuid

def ContextSnapshot.frame {V : Type} (s : ContextSnapshot V) : Frame :=
  ⟨s.items.map ContextItem.toItemMeta, s.currentUser, s.currentResponse⟩

structure CheckpointSection where
  summary : String
  covered : List ContextItemKey
  anchor : Option ContextItemKey
  deriving DecidableEq, Repr

def checkpointVersion : ℕ := 1

structure CheckpointPayload where
  version : ℕ
  history : Option CheckpointSection
  active : Option CheckpointSection
  activeStart : Option ContextItemKey
  deriving DecidableEq, Repr

def CheckpointPayload.default : CheckpointPayload := ⟨checkpointVersion, none, none, none⟩

inductive SectionKind where
  | history
  | active
  deriving DecidableEq, Repr

inductive ContextError where
  | snapshot (reason : String)
  | checkpoint (reason : String)
  | summary (reason : String)
  deriving DecidableEq, Repr

def usizeMax : ℕ := 2^64-1

def satAdd (a b : ℕ) : ℕ := min (a+b) usizeMax

def satSum (start : ℕ) (values : List ℕ) : ℕ := values.foldl satAdd start

theorem satSum_eq (start : ℕ) (values : List ℕ) (h : start ≤ usizeMax) :
    satSum start values = min (start+values.sum) usizeMax := by
  induction values generalizing start with
  | nil => simp [satSum, h]
  | cons value values ih =>
    rw [satSum, List.foldl_cons, ← satSum, ih (satAdd start value) (Nat.min_le_right _ _),
      List.sum_cons, satAdd]
    omega

/-- The characters `str::trim` removes. -/
def isWhitespace (c : Char) : Bool :=
  (0x9 ≤ c.toNat && c.toNat ≤ 0xd) || (0x2000 ≤ c.toNat && c.toNat ≤ 0x200a) ||
    [0x20, 0x85, 0xa0, 0x1680, 0x2028, 0x2029, 0x202f, 0x205f, 0x3000].contains c.toNat

def isBlank (s : String) : Bool := s.toList.all isWhitespace

def Frame.keys (f : Frame) : List ContextItemKey := f.items.map ItemMeta.key

def Frame.position (f : Frame) (key : ContextItemKey) : Option ℕ :=
  f.items.findIdx? (fun item => item.key = key)

theorem position_some (f : Frame) (key : ContextItemKey) (i : ℕ) (h : f.position key = some i) :
    ∃ item, f.items[i]? = some item ∧ item.key = key := by
  obtain ⟨hlt,hkey,-⟩ := List.findIdx?_eq_some_iff_getElem.mp h
  exact ⟨f.items[i],List.getElem?_eq_getElem hlt,by simpa using hkey⟩

variable {f : Frame} {i : ℕ}

theorem position_lt {key : ContextItemKey} (h : f.position key = some i) :
    i < f.items.length := (List.findIdx?_eq_some_iff_getElem.mp h).1

theorem position_of_mem {key : ContextItemKey} (h : key ∈ f.keys) :
    ∃ i, f.position key = some i := by
  obtain ⟨item,hmem,rfl⟩ := List.mem_map.mp h
  rw [← Option.isSome_iff_exists, Frame.position, List.findIdx?_isSome]
  simpa using ⟨item,hmem,rfl⟩

theorem key_unique (hn : f.keys.Nodup) {j : ℕ} {a b : ItemMeta} (ha : f.items[i]? = some a)
    (hb : f.items[j]? = some b) (h : a.key = b.key) : i = j := by
  obtain ⟨hi,rfl⟩ := List.getElem?_eq_some_iff.mp ha
  obtain ⟨hj,rfl⟩ := List.getElem?_eq_some_iff.mp hb
  have hi' : i < f.keys.length := by simpa [Frame.keys] using hi
  have hj' : j < f.keys.length := by simpa [Frame.keys] using hj
  exact (@List.Nodup.getElem_inj_iff _ _ hn i hi' j hj').mp (by simpa [Frame.keys] using h)

theorem position_getElem (hn : f.keys.Nodup) {item : ItemMeta} (h : f.items[i]? = some item) :
    f.position item.key = some i := by
  obtain ⟨j,hj⟩ := position_of_mem (List.mem_map.mpr ⟨item,List.mem_of_getElem? h,rfl⟩)
  obtain ⟨other,ho,hkey⟩ := position_some f _ _ hj
  rw [hj, key_unique hn ho h hkey]

end Maple.Compaction.Items
