import Zwirn.Lib.OrdMap
import Zwirn.Lib.Outcome
import Zwirn.Lib.Segments
import Zwirn.Lib.Utf8

/-!
# Fragment paths

A `FragmentPath` is a text that `validateFragmentPath` accepts: one that segments spell, which it
determines (`validateFragmentPath_eq_ok`, `Spells.unique`). Paths are ordered as their texts are,
scalar value by scalar value, which is the order of their UTF-8 bytes. The code is in
`src/fragment.rs`.
-/

namespace Zwirn.Fragment

open Lib

/-- Why a string is not a canonical fragment path. -/
inductive FragmentPathError
  | empty
  | leadingSlash
  | trailingSlash
  | backslash
  | whitespace
  | emptySegment
  | currentDirectorySegment
  | parentDirectorySegment
deriving DecidableEq, Repr

/-- The characters with the Unicode property `White_Space`. -/
def isWhitespace (c : Char) : Bool :=
  let n := c.toNat
  (0x09 ≤ n && n ≤ 0x0D) || n == 0x20 || n == 0x85 || n == 0xA0 || n == 0x1680 ||
    (0x2000 ≤ n && n ≤ 0x200A) || n == 0x2028 || n == 0x2029 || n == 0x202F || n == 0x205F ||
    n == 0x3000

/-- A segment is not empty, and not one of the special names of a directory. -/
def validateSegment (segment : Str) : Except FragmentPathError Unit :=
  match segment with
  | [] => .error .emptySegment
  | ['.'] => .error .currentDirectorySegment
  | ['.', '.'] => .error .parentDirectorySegment
  | _ => .ok ()

/-- The checks of a path in the order of the source: it is not empty, has no character that is not
allowed, and each of its segments is accepted. The first check that fails names the error. -/
def validateFragmentPath (value : Str) : Except FragmentPathError Unit := do
  require (value ≠ []) .empty
  require (value.head? ≠ some '/') .leadingSlash
  require (value.getLast? ≠ some '/') .trailingSlash
  require ('\\' ∉ value) .backslash
  require (¬ value.any isWhitespace) .whitespace
  forM (value.splitOn '/') validateSegment

/-- A canonical source-root-relative fragment path. -/
structure FragmentPath where
  value : Str
  valid : validateFragmentPath value = .ok ()
deriving DecidableEq

namespace FragmentPath

/-- A path is its text, since the other field is a proof. -/
theorem value_injective : Function.Injective value := by
  intro a b h
  cases a
  cases b
  cases h
  rfl

instance : LinearOrder FragmentPath := LinearOrder.lift' value value_injective

/-- Builds a path from a text that is one. The checks are those of `validateFragmentPath`, and the
text is kept as it is. -/
def tryFrom (value : Str) : Except FragmentPathError FragmentPath :=
  match h : validateFragmentPath value with
  | .ok () => .ok ⟨value, h⟩
  | .error e => .error e

/-- The segments between the separators. -/
def segments (path : FragmentPath) : List Str := path.value.splitOn '/'

/-- The segments of `path` are the first ones of `other`, which has more. -/
def IsAncestor (path other : FragmentPath) : Prop :=
  path.segments <+: other.segments ∧ path.segments ≠ other.segments

instance (path other : FragmentPath) : Decidable (path.IsAncestor other) :=
  inferInstanceAs (Decidable (_ ∧ _))

/-- A path is above another one exactly if the text of this goes on behind that of the path with a
separator. This is how the paths are compared in the source. -/
theorem isAncestor_iff {path other : FragmentPath} :
    path.IsAncestor other ↔ ∃ rest, other.value = path.value ++ '/' :: rest :=
  splitOn_prefix_iff

/-- A path has a segment. -/
theorem segments_ne_nil (path : FragmentPath) : path.segments ≠ [] := List.splitOn_ne_nil _ _

/-- A path is what its segments are. -/
theorem segments_injective : Function.Injective segments := by
  intro a b h
  have hjoin : ∀ path : FragmentPath, ['/'].intercalate path.segments = path.value :=
    fun path => List.intercalate_splitOn '/'
  apply value_injective
  rw [← hjoin a, ← hjoin b, h]

/-- No segment is one of the special names of a directory. The validation refuses both of them. -/
theorem segments_plain (path : FragmentPath) : ∀ segment ∈ path.segments,
    segment ≠ ['.'] ∧ segment ≠ ['.', '.'] := by
  have h := path.valid
  simp only [validateFragmentPath, Except.bind_eq_ok] at h
  obtain ⟨_, _, _, _, _, _, _, _, _, _, h⟩ := h
  intro segment hsegment
  have hvalid := forM_eq_ok.1 h segment hsegment
  refine ⟨fun heq => ?_, fun heq => ?_⟩
  · rw [heq] at hvalid
    cases hvalid
  · rw [heq] at hvalid
    cases hvalid

/-- A text is read as the path with this text, and no other text is. A path is the text and the fact
that it is valid. -/
theorem tryFrom_eq_ok {value : Str} {path : FragmentPath} :
    tryFrom value = .ok path ↔ path.value = value := by
  unfold tryFrom
  split
  · next h =>
    rw [Except.ok.injEq]
    constructor
    · rintro rfl; rfl
    · intro he; exact value_injective he.symm
  · next e h =>
    refine iff_of_false (by simp) fun he => ?_
    have hv := path.valid
    rw [he, h] at hv
    cases hv

/-- The text of a path is read as this path. -/
theorem tryFrom_value (path : FragmentPath) : tryFrom path.value = .ok path :=
  tryFrom_eq_ok.2 rfl

/-- The text of a path is not empty and has no white space in it. -/
theorem valid_parts (path : FragmentPath) : path.value ≠ [] ∧ path.value.any isWhitespace = false := by
  have h := path.valid
  simp only [validateFragmentPath, Except.bind_eq_ok, require_eq_ok] at h
  obtain ⟨_, hne, _, _, _, _, _, _, _, hws, _⟩ := h
  exact ⟨hne, by simpa using hws⟩

end FragmentPath

/-! ## Spelling -/

/-- A segment of a fragment path. -/
structure IsSegment (segment : Str) : Prop where
  nonempty : segment ≠ []
  not_current : segment ≠ ['.']
  not_parent : segment ≠ ['.', '.']
  plain : ∀ c ∈ segment, c ≠ '/' ∧ c ≠ '\\' ∧ isWhitespace c = false

/-- The text is a list of segments with a separator between each two. -/
def Spells (segments : List Str) (value : Str) : Prop :=
  segments ≠ [] ∧ (∀ segment ∈ segments, IsSegment segment) ∧ value = ['/'].intercalate segments

/-- The segments that spell a text are found between its separators. -/
theorem Spells.splitOn {segments : List Str} {value : Str} (h : Spells segments value) :
    value.splitOn '/' = segments := by
  obtain ⟨hne, hsegments, rfl⟩ := h
  exact List.splitOn_intercalate '/' (fun segment hsegment hmem =>
    ((hsegments segment hsegment).plain '/' hmem).1 rfl) hne

/-- The segments that spell a text are determined by it. -/
theorem Spells.unique {segments segments' : List Str} {value : Str} (h : Spells segments value)
    (h' : Spells segments' value) : segments' = segments := by
  rw [← h.splitOn, ← h'.splitOn]

/-- A segment is accepted exactly if it is not empty, and none of the special names. -/
theorem validateSegment_eq_ok {segment : Str} {u : Unit} : validateSegment segment = .ok u ↔
    segment ≠ [] ∧ segment ≠ ['.'] ∧ segment ≠ ['.', '.'] := by
  unfold validateSegment
  split
  · simp
  · simp
  · simp
  · next h1 h2 h3 => exact iff_of_true rfl ⟨h1, h2, h3⟩

/-- The texts that are accepted are those that segments spell. The checks of the code speak of the
text and of its segments. A separator at one of its ends would make an empty segment. -/
theorem validateFragmentPath_eq_ok {value : Str} {u : Unit} :
    validateFragmentPath value = .ok u ↔ ∃ segments, Spells segments value := by
  simp only [validateFragmentPath, Except.bind_eq_ok, require_eq_ok, forM_eq_ok,
    validateSegment_eq_ok]
  refine ⟨fun h => ?_, fun h => ?_⟩
  · obtain ⟨-, -, -, -, -, -, -, hbackslash, -, hwhitespace, hsegments⟩ := h
    have hjoin : value = ['/'].intercalate (value.splitOn '/') := (List.intercalate_splitOn '/').symm
    refine ⟨_, List.splitOn_ne_nil _ _, fun segment hsegment => ?_, hjoin⟩
    obtain ⟨hne, hcurrent, hparent⟩ := hsegments segment hsegment
    refine ⟨hne, hcurrent, hparent, fun c hc => ?_⟩
    have hmem : c ∈ value := by
      rw [hjoin]
      exact mem_intercalate_of_mem hsegment hc
    refine ⟨fun heq => ?_, fun heq => ?_, ?_⟩
    · rw [heq] at hc
      exact not_mem_of_mem_splitOn hsegment hc
    · rw [heq] at hmem
      exact hbackslash hmem
    · simpa using fun hspace => hwhitespace (List.any_eq_true.2 ⟨c, hmem, hspace⟩)
  · obtain ⟨segments, h⟩ := h
    have hsplit := h.splitOn
    obtain ⟨hne, hsegments, hjoin⟩ := h
    -- a separator at an end, or no text at all, would be an empty segment
    have hnil : [] ∉ value.splitOn '/' := fun hmem => by
      rw [hsplit] at hmem
      exact (hsegments [] hmem).nonempty rfl
    have hplain : ∀ c ∈ value, c = '/' ∨ c ≠ '\\' ∧ isWhitespace c = false := by
      intro c hc
      rw [hjoin] at hc
      refine (eq_or_mem_of_mem_intercalate hc).imp_right fun hmem => ?_
      obtain ⟨segment, hsegment, hc⟩ := hmem
      exact ((hsegments segment hsegment).plain c hc).2
    refine ⟨(), fun hempty => ?_, (), fun hhead => hnil (nil_mem_splitOn (.inl hhead)), (),
      fun hlast => hnil (nil_mem_splitOn (.inr hlast)), (), fun hmem => ?_, (), fun hany => ?_, ?_⟩
    · rw [hempty] at hnil
      exact hnil (by simp)
    · rcases hplain _ hmem with heq | h
      · cases heq
      · exact h.1 rfl
    · obtain ⟨c, hc, hspace⟩ := List.any_eq_true.1 hany
      rcases hplain c hc with rfl | h
      · cases hspace
      · rw [h.2] at hspace
        cases hspace
    · rw [hsplit]
      exact fun segment hsegment => ⟨(hsegments segment hsegment).nonempty,
        (hsegments segment hsegment).not_current, (hsegments segment hsegment).not_parent⟩

/-- A path is spelled by its segments. -/
theorem FragmentPath.spells (path : FragmentPath) : Spells path.segments path.value := by
  obtain ⟨segments, h⟩ := validateFragmentPath_eq_ok.1 path.valid
  rwa [FragmentPath.segments, h.splitOn]

/-- The texts that are paths are exactly those that segments spell. -/
theorem FragmentPath.exists_tryFrom {value : Str} :
    (∃ path, FragmentPath.tryFrom value = .ok path) ↔ ∃ segments, Spells segments value := by
  refine ⟨fun h => ?_, fun h => ?_⟩
  · obtain ⟨path, hpath⟩ := h
    exact ⟨_, FragmentPath.tryFrom_eq_ok.1 hpath ▸ path.spells⟩
  · exact ⟨⟨value, validateFragmentPath_eq_ok.2 h⟩, FragmentPath.tryFrom_eq_ok.2 rfl⟩

end Zwirn.Fragment
