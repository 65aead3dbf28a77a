import Maple.Compaction.Items
import Maple.Timeline.Item
import Mathlib.Algebra.Order.BigOperators.Group.List
import Mathlib.Algebra.Order.Group.Nat
import Mathlib.Data.List.DropRight

/-!
# Attachment names

A name is filtered, cut, trimmed and kept away from reserved names. What comes out is safe,
and safe names come out as they went in, so a stored name is never refused by a reader.
-/

set_option autoImplicit false

namespace Maple.Timeline.AttachmentNames

open Item Compaction.Items List

abbrev Text := List Char

def isControl (c : Char) : Bool := c.toNat < 0x20 || (0x7f ≤ c.toNat && c.toNat < 0xa0)

def isSeparator (c : Char) : Bool := c = '/' || c = '\\'

def allowed (c : Char) : Bool := !isControl c && !"<>:\"|?*".toList.contains c

def trimmed (c : Char) : Bool := c = '.' || isWhitespace c

def reservedStems : List String :=
  ["CON", "PRN", "AUX", "NUL", "COM1", "COM2", "COM3", "COM4", "COM5", "COM6", "COM7", "COM8",
    "COM9", "LPT1", "LPT2", "LPT3", "LPT4", "LPT5", "LPT6", "LPT7", "LPT8", "LPT9"]

def stem (name : Text) : Text := (name.takeWhile (· ≠ '.')).map Char.toUpper

def isReserved (name : Text) : Bool :=
  name.isEmpty || name.map Char.toLower = ".part".toList ||
    reservedStems.any (fun reserved => reserved.toList = stem name)

/-- Characters are popped from the end, here in front, while the text is too long. -/
def popTo (limit : ℕ) : Text → Text
  | [] => []
  | c::rest => if limit < utf8Length (c::rest) then popTo limit rest else c::rest

def normalizedName (value : Text) : Text :=
  let last := value.rtakeWhile (fun c => !isSeparator c)
  let name := leadBytes ((last.filter allowed).dropWhile isWhitespace) 180
  let name := name.rdropWhile trimmed
  let name := if isReserved name then "attachment-".toList ++ name else name
  (popTo 180 name.reverse).reverse.rdropWhile trimmed

structure AttachmentUploadMetadata where
  name : Text
  mimeType : Text
  size : ℕ
  sha256 : Text
  deriving DecidableEq

def maxAttachmentBytes : ℕ := 30*1024*1024

def normalizedMetadata (value : AttachmentUploadMetadata) :
    Except StoreError AttachmentUploadMetadata :=
  if maxAttachmentBytes < value.size || utf8Length value.sha256 ≠ 64 ||
      !value.sha256.all (fun c => c.isDigit || ('a' ≤ c && c ≤ 'f')) ||
      128 < utf8Length value.mimeType || !value.mimeType.contains '/' ||
      !value.mimeType.all (fun c => c.isAlphanum || "/!#$&^_.+-".toList.contains c)
    then .error .invalidInput else .ok { value with name := normalizedName value.name }

/-- What the reader of a row demands of its metadata. -/
def readable (metadata : AttachmentUploadMetadata) : Bool :=
  (normalizedMetadata metadata).isOk && normalizedName metadata.name = metadata.name

structure Safe (name : Text) : Prop where
  bytes : 1 ≤ utf8Length name ∧ utf8Length name ≤ 180
  clean : ∀ c ∈ name, isSeparator c = false ∧ allowed c = true
  head : ∀ c ∈ name.head?, isWhitespace c = false
  last : ∀ c ∈ name.getLast?, trimmed c = false
  free : isReserved name = false

section Stages
variable {limit : ℕ}

theorem lead_part (text : Text) (limit : ℕ) :
    leadBytes text limit <+: text ∧ utf8Length (leadBytes text limit) ≤ limit := by
  induction text generalizing limit with
  | nil => exact ⟨prefix_rfl,Nat.zero_le _⟩
  | cons c rest ih =>
    rw [leadBytes]
    split_ifs with hfits
    · obtain ⟨hrest,hbytes⟩ := ih (limit-c.utf8Size)
      refine ⟨prefix_cons_inj c |>.mpr hrest,?_⟩
      simp only [utf8Length, map_cons, sum_cons] at hbytes ⊢
      omega
    · exact ⟨⟨_,rfl⟩,Nat.zero_le _⟩

theorem lead_self {text : Text} (h : utf8Length text ≤ limit) : leadBytes text limit = text := by
  induction text generalizing limit with
  | nil => rfl
  | cons c rest ih =>
    simp only [utf8Length, map_cons, sum_cons] at h
    rw [leadBytes, if_pos (by omega), ih (by unfold utf8Length; omega)]

theorem pop_suffix (limit : ℕ) (text : Text) :
    popTo limit text <:+ text ∧ utf8Length (popTo limit text) ≤ limit := by
  induction text with
  | nil => exact ⟨suffix_rfl,Nat.zero_le _⟩
  | cons c rest ih =>
    rw [popTo]
    split_ifs with hlong
    · exact ⟨ih.1.trans (suffix_cons c rest),ih.2⟩
    · exact ⟨suffix_rfl,Nat.le_of_not_lt hlong⟩

theorem pop_self {text : Text} (h : utf8Length text ≤ limit) : popTo limit text = text := by
  cases text with
  | nil => rfl
  | cons c rest => rw [popTo, if_neg (Nat.not_lt.mpr h)]

theorem pop_keeps {part text : Text} (hpart : part <:+ text) (h : utf8Length part ≤ limit) :
    part <:+ popTo limit text := by
  induction text with
  | nil => exact hpart
  | cons c rest ih =>
    rw [popTo]
    split_ifs with hlong
    · rcases suffix_cons_iff.mp hpart with rfl | hrest
      · omega
      · exact ih hrest
    · exact hpart

theorem trim_keeps {part text : Text} (hpart : part <+: text)
    (hlast : ∀ c ∈ part.getLast?, trimmed c = false) : part <+: text.rdropWhile trimmed := by
  obtain ⟨rest,rfl⟩ := hpart
  induction rest using List.reverseRecOn with
  | nil =>
    have hself : part.rdropWhile trimmed = part := by
      refine rdropWhile_eq_self_iff.mpr (fun hne => ?_)
      simp [hlast _ (List.getLast?_eq_some_getLast hne)]
    simp [hself]
  | append_singleton rest c ih =>
    rw [← append_assoc, rdropWhile_concat]
    split_ifs
    · exact ih
    · exact (prefix_append _ _).trans (prefix_append _ _)

theorem bytes_le_of_sublist {a b : Text} (h : List.Sublist a b) : utf8Length a ≤ utf8Length b :=
  (h.map _).sum_le_sum (fun _ _ => Nat.zero_le _)

theorem bytes_pos {text : Text} (h : text ≠ []) : 1 ≤ utf8Length text := by
  obtain ⟨c,rest,rfl⟩ := exists_cons_of_ne_nil h
  have hpos := Char.utf8Size_pos c
  simp only [utf8Length, map_cons, sum_cons]
  omega

theorem bytes_reverse (text : Text) : utf8Length text.reverse = utf8Length text := by
  simp [utf8Length, sum_reverse]

end Stages

section Names
variable {name : Text}

theorem trim_last (text : Text) : ∀ c ∈ (text.rdropWhile trimmed).getLast?, trimmed c = false := by
  intro c hc
  obtain ⟨hne,rfl⟩ := List.mem_getLast?_eq_getLast hc
  simpa using rdropWhile_last_not trimmed text hne

theorem safe_fixed (h : Safe name) : normalizedName name = name := by
  have hpart : name.rtakeWhile (fun c => !isSeparator c) = name :=
    rtakeWhile_eq_self_iff.mpr (fun c hc => by simp [(h.clean c hc).1])
  have hfilter : name.filter allowed = name :=
    filter_eq_self.mpr (fun c hc => (h.clean c hc).2)
  have hdrop : name.dropWhile isWhitespace = name := by
    cases name with
    | nil => rfl
    | cons c rest => simp [h.head c rfl]
  have htrim : name.rdropWhile trimmed = name := by
    refine rdropWhile_eq_self_iff.mpr (fun hne => ?_)
    simp [h.last _ (List.getLast?_eq_some_getLast hne)]
  have hpop : popTo 180 name.reverse = name.reverse := by
    apply pop_self
    rw [bytes_reverse]
    exact h.bytes.2
  simp [normalizedName, hpart, hfilter, hdrop, lead_self h.bytes.2, htrim, h.free, hpop]

/-- The name before reserved names are taken care of. -/
def cutName (value : Text) : Text :=
  let last := value.rtakeWhile (fun c => !isSeparator c)
  (leadBytes ((last.filter allowed).dropWhile isWhitespace) 180).rdropWhile trimmed

theorem cut_part (value : Text) : cutName value <+:
      ((value.rtakeWhile (fun c => !isSeparator c)).filter allowed).dropWhile isWhitespace := by
  have htrim := rdropWhile_prefix trimmed
  exact (htrim _).trans (lead_part _ _).1

theorem cut_bytes (value : Text) : utf8Length (cutName value) ≤ 180 := by
  have htrim := rdropWhile_prefix trimmed
  exact (bytes_le_of_sublist (htrim _).sublist).trans (lead_part _ _).2

theorem cut_clean (value : Text) :
    ∀ c ∈ cutName value, isSeparator c = false ∧ allowed c = true := by
  intro c hc
  have hkept := (dropWhile_sublist _).subset ((cut_part value).subset hc)
  obtain ⟨hlast,hallowed⟩ := mem_filter.mp hkept
  exact ⟨by simpa using mem_rtakeWhile_imp hlast,hallowed⟩

theorem cut_head (value : Text) : ∀ c ∈ (cutName value).head?, isWhitespace c = false := by
  intro c hc
  obtain ⟨rest,hrest⟩ := cut_part value
  have hhead := List.head?_dropWhile_not isWhitespace
    ((value.rtakeWhile (fun c => !isSeparator c)).filter allowed)
  rw [← hrest, List.head?_append, Option.mem_def.mp hc] at hhead
  exact hhead

/-- The name put in front keeps a name from being a reserved one. -/
theorem front_free (rest : Text) : isReserved ("attachment-".toList ++ rest) = false := by
  simp [isReserved, stem, reservedStems]

theorem front_chars : "attachment-".toList =
    ['a', 't', 't', 'a', 'c', 'h', 'm', 'e', 'n', 't', '-'] := by simp

theorem normalized_cut (value : Text) : normalizedName value =
    (popTo 180 (if isReserved (cutName value) then "attachment-".toList ++ cutName value
      else cutName value).reverse).reverse.rdropWhile trimmed := rfl

theorem normalized_prefix (value : Text) :
    normalizedName value <+: (if isReserved (cutName value) then
      "attachment-".toList ++ cutName value else cutName value) ∧
      utf8Length (normalizedName value) ≤ 180 := by
  rw [normalized_cut]
  generalize (if isReserved (cutName value) then "attachment-".toList ++ cutName value
    else cutName value) = name
  obtain ⟨hsuffix,hbytes⟩ := pop_suffix 180 name.reverse
  have htrim := rdropWhile_prefix trimmed (popTo 180 name.reverse).reverse
  refine ⟨htrim.trans ?_,(bytes_le_of_sublist htrim.sublist).trans ?_⟩
  · rw [← reverse_suffix, reverse_reverse]
    exact hsuffix
  · rw [bytes_reverse]
    exact hbytes

theorem normalized_safe (value : Text) : Safe (normalizedName value) := by
  obtain ⟨hfront,hbytes⟩ := normalized_prefix value
  have hlast : ∀ c ∈ (normalizedName value).getLast?, trimmed c = false := trim_last _
  cases hfree : isReserved (cutName value) with
  | false =>
    have hsame : normalizedName value = cutName value := by
      have htrim : (cutName value).rdropWhile trimmed = cutName value :=
        rdropWhile_idempotent trimmed _
      rw [normalized_cut, hfree, if_neg Bool.false_ne_true, pop_self, reverse_reverse, htrim]
      rw [bytes_reverse]
      exact cut_bytes value
    rw [hsame] at hbytes hlast ⊢
    refine ⟨⟨bytes_pos (fun hempty => ?_),hbytes⟩,cut_clean value,cut_head value,hlast,hfree⟩
    rw [hempty] at hfree
    cases hfree
  | true =>
    -- the front fits, so neither cutting nor trimming takes anything of it
    rw [hfree, if_pos rfl] at hfront
    have hfront : "attachment-".toList <+: normalizedName value := by
      rw [normalized_cut, hfree, if_pos rfl]
      apply trim_keeps
      · rw [← reverse_suffix, reverse_reverse]
        apply pop_keeps
        · rw [reverse_suffix]
          exact prefix_append _ _
        · rw [front_chars]
          decide
      · simp [trimmed, isWhitespace]
    obtain ⟨rest,hrest⟩ := hfront
    rw [← hrest] at hbytes hlast hfront ⊢
    have hclean : ∀ c ∈ "attachment-".toList, isSeparator c = false ∧ allowed c = true := by
      simp [isSeparator, allowed, isControl]
    refine ⟨⟨bytes_pos (by simp),hbytes⟩,?_,?_,hlast,front_free rest⟩
    · intro c hc
      rcases mem_append.mp (hfront.subset hc) with hmem | hmem
      · exact hclean c hmem
      · exact cut_clean value c hmem
    · intro c hc
      cases (show some 'a' = some c from hc)
      decide

/-- A normalised name is safe and stays as it is, so neither an upload nor a later read of
its row is refused because of the name. -/
theorem attachment_name_settled :
    (∀ value, Safe (normalizedName value) ∧
      normalizedName (normalizedName value) = normalizedName value) ∧
    (∀ name, Safe name → normalizedName name = name) ∧
    (∀ value metadata, normalizedMetadata value = .ok metadata →
      normalizedName metadata.name = metadata.name ∧ readable metadata = true) ∧
    ∀ value name, (normalizedMetadata { value with name := name }).isOk =
      (normalizedMetadata value).isOk := by
  have hfixed : ∀ value, normalizedName (normalizedName value) = normalizedName value :=
    fun value => safe_fixed (normalized_safe value)
  refine ⟨fun value => ⟨normalized_safe value, hfixed value⟩, fun _ => safe_fixed, ?_, ?_⟩
  · intro value metadata h
    unfold normalizedMetadata at h
    split_ifs at h with hbad
    cases h
    have hname := hfixed value.name
    refine ⟨hname, ?_⟩
    simp only [readable, normalizedMetadata, if_neg hbad, hname]
    rfl
  · intro value name
    unfold normalizedMetadata
    split_ifs <;> rfl

end Names

end Maple.Timeline.AttachmentNames
