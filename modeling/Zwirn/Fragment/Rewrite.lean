import Zwirn.Lib.OrdMap
import Zwirn.Lib.Usize
import Zwirn.Fragment.Parse

/-!
# Rewriting fragments

`ParsedSource.rewrite` collects one edit for each changed source and each changed hash, in source
order, and copies the text between them. `ParsedSource.rewrite_value` states what comes out: the
sections of the source, each with the body and the hash that the batch wants. The code is in
`src/fragment.rs`.
-/

namespace Zwirn.Fragment

open Lib

/-- A requested change to one parsed fragment. -/
inductive FragmentUpdate
  /-- Retain exact embedded source and record its canonical hash. -/
  | record (path : FragmentPath)
  /-- Replace embedded source and record the replacement's hash. -/
  | replace (path : FragmentPath) (source : CanonicalSource)
deriving DecidableEq

/-- What a caller wants to be the source of a fragment: the one that it has, or another one. -/
inductive RequestedSource
  | current
  | replacement (source : CanonicalSource)
deriving DecidableEq

namespace FragmentUpdate

/-- The path that an update is for. -/
def path : FragmentUpdate → FragmentPath
  | .record path => path
  | .replace path _ => path

/-- The source that an update wants. -/
def requested : FragmentUpdate → RequestedSource
  | .record _ => .current
  | .replace _ source => .replacement source

end FragmentUpdate

/-- A failure while applying fragment updates. -/
inductive RewriteError
  | duplicateUpdate (path : FragmentPath)
  | unknownPath (path : FragmentPath)
  | ambiguousPath (path : FragmentPath)
  | sourceTooLarge
deriving DecidableEq

/-- An edit: the range that it replaces, and what stands there then. -/
structure TextEdit where
  start : Nat
  stop : Nat
  replacement : Str
deriving DecidableEq

/-- Enters one update. -/
def requestUpdate (requested : OrdMap FragmentPath RequestedSource) (u : FragmentUpdate) :
    Except RewriteError (OrdMap FragmentPath RequestedSource) := do
  require ((requested.find? u.path).isNone) (.duplicateUpdate u.path)
  pure (requested.insert u.path u.requested)

/-- A requested path occurs exactly once. -/
def checkRequested (fragments : List FragmentPlace) (path : FragmentPath) :
    Except RewriteError Unit :=
  match fragments.filter fun f => f.path = path with
  | [] => .error (.unknownPath path)
  | [_] => pure ()
  | _ => .error (.ambiguousPath path)

section
variable [Sha256]

/-- The edits of one fragment, its source before its hash. A text that the fragment has already, and
a hash that is stored already, are not edited. -/
def fragmentEdits {source : Str} (want : Option RequestedSource) (f : ParsedFragment source) :
    List TextEdit :=
  let hashEdit (hash : BaselineHash) : List TextEdit :=
    if f.baseline ≠ some hash then
      [⟨f.hashLocation.range.1, f.hashLocation.range.2, f.hashLocation.storedText hash⟩]
    else []
  match want with
  | none => []
  | some .current =>
    hashEdit (.fromSource (.fromValidated (span source f.start f.stop) f.unmarked))
  | some (.replacement replacement) =>
    (if span source f.start f.stop ≠ replacement.value then
      [⟨f.start, f.stop, replacement.value⟩] else []) ++ hashEdit (.fromSource replacement)

/-- The length of the text after one more edit. -/
def editLength (source : Str) (length : Nat) (edit : TextEdit) : Except RewriteError Nat :=
  okOr ((checkedSub length (utf8Len (span source edit.start edit.stop))).bind fun length =>
    checkedAdd length (utf8Len edit.replacement)) .sourceTooLarge

/-- The text from `cursor` on with the edits applied. -/
def applyEdits (source : Str) : Nat → List TextEdit → Str
  | cursor, [] => source.drop cursor
  | cursor, edit :: edits =>
    span source cursor edit.start ++ edit.replacement ++ applyEdits source edit.stop edits

/-- Applies a batch of source and baseline updates surgically. The updates are collected and checked
first, and the length of the result is known before it is built. -/
def ParsedSource.rewrite (p : ParsedSource) (updates : List FragmentUpdate) :
    Except RewriteError (Cow Str) :=
  if updates.isEmpty then pure (.borrowed p.source)
  else do
    let requested ← updates.foldlM requestUpdate .empty
    forM requested.keys (checkRequested (p.fragments.map (·.toFragmentPlace)))
    let edits := p.fragments.flatMap fun f => fragmentEdits (requested.find? f.path) f
    if edits.isEmpty then pure (.borrowed p.source)
    else do
      let _finalLength ← edits.foldlM (editLength p.source) (utf8Len p.source)
      pure (.owned (applyEdits p.source 0 edits))

end

/-! ## The requested sources -/

/-- The source a batch wants for a path. -/
def wantedSource (updates : List FragmentUpdate) (path : FragmentPath) : Option RequestedSource :=
  (updates.find? fun u => u.path = path).map FragmentUpdate.requested

/-- The entered updates have different paths, and each path finds its own. The induction adds one
update behind the others, which is refused if its path is entered. -/
theorem requestUpdate_eq_ok {updates : List FragmentUpdate}
    {m : OrdMap FragmentPath RequestedSource} (h : updates.foldlM requestUpdate .empty = .ok m) :
    (updates.map FragmentUpdate.path).Nodup ∧ ∀ path, m.find? path = wantedSource updates path := by
  induction updates using List.reverseRecOn generalizing m with
  | nil =>
    cases h
    exact ⟨.nil, fun path => rfl⟩
  | append_singleton updates u ih =>
    rw [foldlM_append_eq_ok] at h
    obtain ⟨m₁, h1, h2⟩ := h
    obtain ⟨hnodup, hfind⟩ := ih h1
    simp only [List.foldlM_cons, List.foldlM_nil, bind_pure, requestUpdate, Except.bind_eq_ok,
      require_eq_ok, Except.pure_eq_ok, Option.isNone_iff_eq_none] at h2
    obtain ⟨_, hnone, rfl⟩ := h2
    rw [hfind] at hnone
    have hnew : ∀ u' ∈ updates, u'.path ≠ u.path := by
      simpa [wantedSource] using hnone
    refine ⟨?_, fun path => ?_⟩
    · rw [List.map_append, List.nodup_append]
      refine ⟨hnodup, by simp, fun a ha b hb => ?_⟩
      obtain ⟨u', hu', rfl⟩ := List.mem_map.1 ha
      obtain rfl : b = u.path := by simpa using hb
      exact hnew u' hu'
    · rw [OrdMap.find?_insert, hfind]
      unfold wantedSource
      rw [List.find?_append]
      split
      · next heq =>
        subst heq
        have : updates.find? (fun u' => u'.path = u.path) = none := by simpa using hnew
        simp [this]
      · next hne =>
        have : List.find? (fun u' => decide (u'.path = path)) [u] = none := by
          simpa using Ne.symm hne
        rw [this, Option.or_none]

/-- What is wanted for a path comes from an update for it. -/
theorem mem_of_wantedSource {updates : List FragmentUpdate} {path : FragmentPath}
    {r : RequestedSource} (h : wantedSource updates path = some r) :
    ∃ u ∈ updates, u.path = path ∧ u.requested = r := by
  obtain ⟨u, hu, rfl⟩ := Option.map_eq_some_iff.1 h
  exact ⟨u, List.mem_of_find?_eq_some hu, by simpa using List.find?_some hu, rfl⟩

/-- Of updates with different paths each one says what is wanted for its own. The first update with
the path is the only one. -/
theorem wantedSource_of_mem {updates : List FragmentUpdate}
    (hnodup : (updates.map FragmentUpdate.path).Nodup) {u : FragmentUpdate} (h : u ∈ updates) :
    wantedSource updates u.path = some u.requested := by
  induction updates with
  | nil => cases h
  | cons u' updates ih =>
    rw [List.map_cons, List.nodup_cons] at hnodup
    unfold wantedSource at ih ⊢
    rcases List.mem_cons.1 h with rfl | h
    · simp
    · have hne : u'.path ≠ u.path := fun heq =>
        hnodup.1 (List.mem_map.2 ⟨u, h, heq.symm⟩)
      rw [List.find?_cons_of_neg (by simpa using hne)]
      exact ih hnodup.2 h

/-- A batch in another order wants the same. The paths differ, so no update comes in front of
another one with its path. -/
theorem wantedSource_perm {updates updates' : List FragmentUpdate}
    (hnodup : (updates.map FragmentUpdate.path).Nodup) (h : updates'.Perm updates)
    (path : FragmentPath) : wantedSource updates' path = wantedSource updates path := by
  have hnodup' := (h.map FragmentUpdate.path).nodup_iff.2 hnodup
  cases hw : wantedSource updates path with
  | some r =>
    obtain ⟨u, hu, rfl, rfl⟩ := mem_of_wantedSource hw
    exact wantedSource_of_mem hnodup' (h.mem_iff.2 hu)
  | none =>
    cases hw' : wantedSource updates' path with
    | none => rfl
    | some r =>
      obtain ⟨u, hu, rfl, rfl⟩ := mem_of_wantedSource hw'
      rw [wantedSource_of_mem hnodup (h.mem_iff.1 hu)] at hw
      cases hw

/-- Updates with different paths can be entered. With `requestUpdate_eq_ok`, a batch is entered
exactly if no path occurs twice in it. -/
theorem requestUpdate_ok {updates : List FragmentUpdate}
    (h : (updates.map FragmentUpdate.path).Nodup) :
    ∃ m, updates.foldlM requestUpdate .empty = .ok m := by
  induction updates using List.reverseRecOn with
  | nil => exact ⟨_, rfl⟩
  | append_singleton updates u ih =>
    rw [List.map_append, List.nodup_append] at h
    obtain ⟨m, hm⟩ := ih h.1
    have hnone : m.find? u.path = none := by
      rw [(requestUpdate_eq_ok hm).2, wantedSource, Option.map_eq_none_iff, List.find?_eq_none]
      intro u' hu'
      simpa using h.2.2 _ (List.mem_map_of_mem hu') u.path (by simp)
    refine ⟨m.insert u.path u.requested, ?_⟩
    rw [foldlM_append_eq_ok]
    refine ⟨m, hm, ?_⟩
    simp only [List.foldlM_cons, List.foldlM_nil, bind_pure, requestUpdate, Except.bind_eq_ok,
      require_eq_ok, Except.pure_eq_ok]
    exact ⟨(), by simp [hnone], trivial⟩

/-- The entered paths are those of the updates. What a path finds is what is wanted for it. -/
theorem requestUpdate_keys {updates : List FragmentUpdate}
    {m : OrdMap FragmentPath RequestedSource} (h : updates.foldlM requestUpdate .empty = .ok m)
    {path : FragmentPath} : path ∈ m.keys ↔ path ∈ updates.map FragmentUpdate.path := by
  rw [OrdMap.mem_keys, (requestUpdate_eq_ok h).2, List.mem_map]
  constructor
  · intro hfind
    obtain ⟨r, hr⟩ := hfind
    obtain ⟨u, hu, hpath, -⟩ := mem_of_wantedSource hr
    exact ⟨u, hu, hpath⟩
  · intro hmem
    obtain ⟨u, hu, rfl⟩ := hmem
    exact ⟨_, wantedSource_of_mem (requestUpdate_eq_ok h).1 hu⟩

/-! ## Edits of a text -/

/-- The edits begin at `start` or behind it. -/
def Behind (start : Nat) (edits : List TextEdit) : Prop := ∀ edit ∈ edits, start ≤ edit.start

/-- No edits are behind any place. -/
theorem Behind.nil {start : Nat} : Behind start [] := by simp [Behind]

/-- One edit is behind where it begins. -/
theorem Behind.singleton {start : Nat} {edit : TextEdit} (h : start ≤ edit.start) :
    Behind start [edit] := by simpa [Behind] using h

/-- Two lists of edits are behind what each of them is behind. -/
theorem Behind.append {start : Nat} {edits edits' : List TextEdit} (h : Behind start edits)
    (h' : Behind start edits') : Behind start (edits ++ edits') := by
  intro edit hedit
  rcases List.mem_append.1 hedit with hedit | hedit
  · exact h edit hedit
  · exact h' edit hedit

/-- Edits behind a place are behind every place in front of it. -/
theorem Behind.mono {start start' : Nat} {edits : List TextEdit} (h : Behind start edits)
    (hle : start' ≤ start) : Behind start' edits := fun edit hedit => hle.trans (h edit hedit)

/-- Text in front of the first edit is copied. So a piece of the text can be put aside in front of
the edits that belong to what follows. -/
theorem applyEdits_skip {source : Str} {start stop : Nat} (hle : start ≤ stop)
    {edits : List TextEdit} (h : Behind stop edits) :
    applyEdits source start edits = span source start stop ++ applyEdits source stop edits := by
  have hdrop : source.drop stop = (source.drop start).drop (stop - start) := by
    rw [List.drop_drop, Nat.add_sub_cancel' hle]
  cases edits with
  | nil =>
    rw [applyEdits, applyEdits, hdrop]
    exact (List.take_append_drop _ _).symm
  | cons edit edits =>
    have hstart := h edit (by simp)
    have hspan : span source start edit.start =
        span source start stop ++ span source stop edit.start := by
      rw [span, span, span, slice, slice, slice, hdrop, ← List.take_add]
      congr 1
      omega
    rw [applyEdits, applyEdits, hspan]
    simp

/-- A part of the text with at most one edit, of `old` in it. Both the edit of a body and that of
a hash are of this form: there is an edit exactly if the condition holds, and `old` stays
otherwise. -/
theorem applyEdits_part {source before front old rest new after : Str} {edits : List TextEdit}
    (c : Prop) [Decidable c] (hsource : source = before ++ (front ++ old ++ rest ++ after))
    (h : Behind (before.length + (front ++ old ++ rest).length) edits) :
    applyEdits source before.length ((if c then
          [⟨before.length + front.length, before.length + front.length + old.length, new⟩]
        else []) ++ edits) =
      front ++ (if c then new else old) ++ rest ++
        applyEdits source (before.length + (front ++ old ++ rest).length) edits := by
  simp only [List.length_append, ← Nat.add_assoc] at h ⊢
  split
  · have hfront : span source before.length (before.length + front.length) = front := by
      rw [hsource, List.append_assoc, List.append_assoc, span_eq]
    have hrest : span source (before.length + front.length + old.length)
        (before.length + front.length + old.length + rest.length) = rest := by
      have := @span_eq (before ++ front ++ old) rest after
      rw [hsource]
      simpa [Nat.add_assoc] using this
    rw [List.singleton_append, applyEdits, applyEdits_skip (Nat.le_add_right _ _) h, hfront, hrest]
    simp
  · have hall := @span_eq before (front ++ old ++ rest) after
    simp only [List.length_append, ← Nat.add_assoc] at hall
    rw [List.nil_append, applyEdits_skip (by omega) h, hsource, hall]

/-! ## The rewritten text -/

section
variable [Sha256]

/-- The hash of the canonical form of a text. -/
def BaselineHash.ofText (text : Str) : BaselineHash where
  bytes := (Sha256.digest (encode (canonicalizeSource text))).take 8
  size := by rw [List.length_take, Sha256.digest_length]; rfl

/-- The hash of canonical source is the one of its text. -/
theorem BaselineHash.fromSource_eq (source : CanonicalSource) :
    fromSource source = ofText source.value := by
  apply bytes_injective
  simp only [fromSource, ofText, source.canonical]

/-- A fragment with what a batch wants for it. -/
def FragmentView.updated (f : FragmentView) : Option RequestedSource → FragmentView
  | none => f
  | some .current => { f with baseline := some (.ofText f.source) }
  | some (.replacement source) => ⟨f.path, some (.fromSource source), source.value⟩

/-- The edit that stores a hash at its place. -/
def FragmentPlace.hashEdits (f : FragmentPlace) : Option BaselineHash → List TextEdit
  | none => []
  | some hash =>
    if f.baseline ≠ some hash then
      [⟨f.hashLocation.range.1, f.hashLocation.range.2, f.hashLocation.storedText hash⟩]
    else []

/-- The edits that turn the fragment at a place into `u`. -/
def FragmentPlace.edits (source : Str) (f : FragmentPlace) (u : FragmentView) : List TextEdit :=
  (if span source f.start f.stop ≠ u.source then [⟨f.start, f.stop, u.source⟩] else []) ++
    f.hashEdits u.baseline

/-- The edits of a fragment are those that turn it into what is wanted. A hash is stored for the
text that the fragment has then. -/
theorem fragmentEdits_eq {source : Str} (want : Option RequestedSource)
    (f : ParsedFragment source) :
    fragmentEdits want f = f.toFragmentPlace.edits source (f.view.updated want) := by
  cases want with
  | none =>
    simp only [fragmentEdits, FragmentView.updated, ParsedFragment.view, FragmentPlace.edits]
    cases hb : f.baseline <;> simp [FragmentPlace.hashEdits, hb]
  | some requested =>
    cases requested with
    | current =>
      simp only [FragmentView.updated, ParsedFragment.view, FragmentPlace.edits, ne_eq,
        not_true_eq_false, if_false, List.nil_append]
      rfl
    | replacement r => rfl

end

/-- Moving a line moves the range that storing a hash replaces. -/
theorem HashLocation.range_shift (location : HashLocation) (start : Nat) :
    (location.shift start).range = (start + location.range.1, start + location.range.2) := by
  cases location <;> rfl

/-- Moving a line does not change the text that stores a hash. -/
theorem HashLocation.storedText_shift (location : HashLocation) (start : Nat)
    (hash : BaselineHash) : (location.shift start).storedText hash = location.storedText hash := by
  cases location <;> rfl

/-- A closing line is a front, what storing a hash replaces, and a rest. -/
theorem ClosingContent.range_parts {comment content : Str} {path : FragmentPath}
    {baseline : Option BaselineHash} {location : HashLocation}
    (h : ClosingContent comment path content baseline location) :
    ∃ front old rest, content = front ++ (old ++ rest) ∧ location.range.1 = front.length ∧
      location.range.2 = front.length + old.length := by
  cases h with
  | @missing pre tail _ _ => exact ⟨pre, [], tail, rfl, rfl, rfl⟩
  | @present pre gap tok tail _ _ _ _ _ _ _ =>
    exact ⟨pre ++ gap, tok, tail, by simp, by simp [HashLocation.range],
      by simp [HashLocation.range]⟩

namespace FragmentSection

/-- The closing line with a hash to be stored. -/
def closingWith (s : FragmentSection) : Option BaselineHash → Line
  | none => s.closing
  | some hash =>
    if s.baseline ≠ some hash then
      { s.closing with
        content := s.closing.content.take s.location.range.1 ++ s.location.storedText hash ++
          s.closing.content.drop s.location.range.2 }
    else s.closing

/-- The text of a section whose fragment is turned into `u`. -/
def updatedText (s : FragmentSection) (u : FragmentView) : Str :=
  joinLines s.gap ++ (s.opening.text ++ (u.source ++ (s.closingWith u.baseline).text))

/-- The closing line stores the hash. Where the hash is to stay, or is there already, it is the
closing line itself. -/
theorem Ok.closingWith {comment : Str} {s : FragmentSection} (h : s.Ok comment)
    {baseline : Option BaselineHash} (hb : baseline = none → s.baseline = none) :
    ∃ location, ClosingContent comment s.path (s.closingWith baseline).content baseline location := by
  have hclosing := h.closing
  cases baseline with
  | none =>
    rw [hb rfl] at hclosing
    exact ⟨_, hclosing⟩
  | some hash =>
    unfold FragmentSection.closingWith
    dsimp only
    split
    · exact hclosing.store hash
    · next heq =>
      rw [not_not.1 heq] at hclosing
      exact ⟨_, hclosing⟩

/-- The edit that stores the hash is behind the source of the fragment. The hash is on the closing
line, and the source ends where this line starts. -/
theorem behind_hashEdits (s : FragmentSection) (start : Nat) (baseline : Option BaselineHash) :
    Behind (s.sourceStop start) ((s.place start).hashEdits baseline) := by
  cases baseline with
  | none => exact Behind.nil
  | some hash =>
    unfold FragmentPlace.hashEdits
    dsimp only
    split
    · refine Behind.singleton ?_
      simp only [place, HashLocation.range_shift]
      exact Nat.le_add_right _ _
    · exact Behind.nil

/-- The edits of a fragment are behind the start of its section. -/
theorem behind_edits {source : Str} (s : FragmentSection) {start : Nat} {u : FragmentView} :
    Behind start ((s.place start).edits source u) := by
  have hstart : start ≤ s.sourceStart start := by unfold sourceStart; omega
  have hstop : start ≤ s.sourceStop start := by unfold sourceStop; omega
  refine Behind.append ?_ ((s.behind_hashEdits start u.baseline).mono hstop)
  split
  · exact Behind.singleton hstart
  · exact Behind.nil

/-- The edits of sections are behind the start of the first one. -/
theorem behind_flatMap_edits {source : Str} {start m : Nat} {ss : List FragmentSection}
    (want : FragmentPlace → FragmentView) (hle : m ≤ start) :
    Behind m ((places start ss).flatMap fun f => f.edits source (want f)) := by
  induction ss generalizing start with
  | nil => exact Behind.nil
  | cons s ss ih => exact (s.behind_edits.mono hle).append (ih (by omega))

/-- The edits of a closing line. The line is cut around the place of its hash, and the cut is an
instance of `applyEdits_part`. -/
theorem applyEdits_closing {comment source before after : Str} {s : FragmentSection} {start : Nat}
    (h : s.Ok comment) (hsource : source = before ++ (s.closing.text ++ after))
    (hstop : s.sourceStop start = before.length) {baseline : Option BaselineHash}
    {edits : List TextEdit} (hedits : Behind (before.length + s.closing.text.length) edits) :
    applyEdits source before.length ((s.place start).hashEdits baseline ++ edits) =
      (s.closingWith baseline).text ++
        applyEdits source (before.length + s.closing.text.length) edits := by
  cases baseline with
  | none =>
    have hpart := @applyEdits_part source before s.closing.text [] [] [] after edits False _
      (by simpa using hsource) (by simpa using hedits)
    simpa [FragmentPlace.hashEdits, FragmentSection.closingWith] using hpart
  | some hash =>
    obtain ⟨front, old, rest, hcontent, ha, hb⟩ := h.closing.range_parts
    have hedit : (s.place start).hashEdits (some hash) = if s.baseline ≠ some hash then
        [⟨before.length + front.length, before.length + front.length + old.length,
          s.location.storedText hash⟩] else [] := by
      simp only [FragmentPlace.hashEdits, place, HashLocation.range_shift,
        HashLocation.storedText_shift, hstop, ha, hb, Nat.add_assoc]
    have hold : s.closing.text = front ++ old ++ (rest ++ s.closing.terminator.chars) := by
      rw [Line.text, hcontent]
      simp
    have hnew : (s.closingWith (some hash)).text = front ++
        (if s.baseline ≠ some hash then s.location.storedText hash else old) ++
          (rest ++ s.closing.terminator.chars) := by
      unfold FragmentSection.closingWith
      dsimp only
      split
      · rw [Line.text, hcontent, ha, hb, List.take_left, ← List.append_assoc front,
          ← List.length_append, List.drop_left]
        simp
      · exact hold
    rw [hold] at hsource hedits ⊢
    rw [hedit, hnew]
    exact applyEdits_part _ hsource hedits

/-- The edits of a section. The body is edited first and the closing line behind it, so this is
`applyEdits_part` followed by `applyEdits_closing`. -/
theorem applyEdits_section {comment source before after : Str} {s : FragmentSection}
    (h : s.Ok comment) (hsource : source = before ++ (joinLines s.lines ++ after))
    (u : FragmentView) {edits : List TextEdit}
    (hedits : Behind (before.length + (joinLines s.lines).length) edits) :
    applyEdits source before.length ((s.place before.length).edits source u ++ edits) =
      s.updatedText u ++ applyEdits source (before.length + (joinLines s.lines).length) edits := by
  generalize hfront : joinLines s.gap ++ s.opening.text = front
  have hlines : joinLines s.lines = front ++ joinLines s.body ++ s.closing.text := by
    rw [s.joinLines_lines, ← hfront]
    simp
  have hstart : s.sourceStart before.length = before.length + front.length := by
    rw [sourceStart, ← hfront, List.length_append, Nat.add_assoc]
  have hstop : s.sourceStop before.length = (before ++ (front ++ joinLines s.body)).length := by
    rw [sourceStop, hstart, List.length_append, List.length_append, Nat.add_assoc]
  rw [hlines] at hsource hedits ⊢
  have hlength : before.length + (front ++ joinLines s.body ++ s.closing.text).length =
      (before ++ (front ++ joinLines s.body)).length + s.closing.text.length := by
    simp only [List.length_append, Nat.add_assoc]
  rw [hlength] at hedits ⊢
  have hspan : span source (s.place before.length).start (s.place before.length).stop =
      joinLines s.body := by
    have := @span_eq (before ++ front) (joinLines s.body) (s.closing.text ++ after)
    simp only [place, sourceStop, hstart]
    rw [hsource]
    simpa using this
  -- the edit of the body, and behind it the one of the closing line
  have hclosing := @applyEdits_closing _ source (before ++ (front ++ joinLines s.body)) after _ _ h
    (by rw [hsource]; simp) hstop u.baseline _ hedits
  have hbody := @applyEdits_part source before front (joinLines s.body) [] u.source
    (s.closing.text ++ after) ((s.place before.length).hashEdits u.baseline ++ edits)
    (joinLines s.body ≠ u.source) _ (by rw [hsource]; simp)
    (by
      rw [List.append_nil, ← List.length_append, ← hstop]
      exact (s.behind_hashEdits _ _).append (hedits.mono (by omega)))
  have hu : (if joinLines s.body ≠ u.source then u.source else joinLines s.body) = u.source := by
    split
    · rfl
    · next heq => exact not_not.1 heq
  rw [List.append_nil, List.append_nil, hu,
    ← @List.length_append _ before (front ++ joinLines s.body), hclosing] at hbody
  have hfirst : (s.place before.length).start = before.length + front.length := hstart
  have hlast : (s.place before.length).stop =
      before.length + front.length + (joinLines s.body).length := by
    rw [← hstart]
    rfl
  rw [FragmentPlace.edits, hspan, List.append_assoc, hfirst, hlast, hbody, updatedText, ← hfront]
  simp

/-- The edits of all sections give the updated sections. The induction is on the sections. The edits
of the later ones lie behind the first one. -/
theorem applyEdits_sections {comment source before after : Str} {ss : List FragmentSection}
    (h : ∀ s ∈ ss, Ok comment s)
    (hsource : source = before ++ (joinLines (ss.flatMap lines) ++ after))
    (want : FragmentView → FragmentView) :
    applyEdits source before.length ((places before.length ss).flatMap fun f =>
        f.edits source (want (f.view source))) =
      (ss.flatMap fun s => s.updatedText (want s.fragment)) ++ after := by
  induction ss generalizing before with
  | nil => rw [hsource]; exact List.drop_left
  | cons s ss ih =>
    rw [List.flatMap_cons, joinLines_append, List.append_assoc] at hsource
    have hview := view_place hsource
    have hs := applyEdits_section (h s (by simp)) hsource (want s.fragment)
      (@behind_flatMap_edits source _ _ ss (fun f => want (f.view source)) (Nat.le_refl _))
    rw [← List.append_assoc] at hsource
    have ih := ih (fun s' hs => h s' (List.mem_cons_of_mem _ hs)) hsource
    rw [List.length_append] at ih
    rw [places, List.flatMap_cons, List.flatMap_cons, hview, hs, ih, List.append_assoc]

end FragmentSection

/-! ## The rewritten source -/

/-- A requested path is accepted exactly if it is the one of a single fragment. -/
theorem checkRequested_eq_ok {fragments : List FragmentPlace} {path : FragmentPath} {u : Unit} :
    checkRequested fragments path = .ok u ↔
      ∃ f, fragments.filter (fun f => f.path = path) = [f] := by
  unfold checkRequested
  split
  · next h => simp [h]
  · next f h => simp [h]
  · next h1 h2 => exact iff_of_false (by simp) fun h => h2 _ h.choose_spec

/-- The updates name different paths, each the one of a single fragment. -/
structure Addressed (updates : List FragmentUpdate) (fragments : List FragmentView) : Prop where
  nodup : (updates.map FragmentUpdate.path).Nodup
  unique : ∀ u ∈ updates, ∃ f, fragments.filter (fun f => f.path = u.path) = [f]

section
variable [Sha256]

/-- What a batch makes of a fragment. -/
def FragmentView.wanted (updates : List FragmentUpdate) (f : FragmentView) : FragmentView :=
  f.updated (wantedSource updates f.path)

/-- An update says what is wanted of the fragment it names. -/
theorem FragmentView.wanted_of_mem {updates : List FragmentUpdate}
    (hnodup : (updates.map FragmentUpdate.path).Nodup) {u : FragmentUpdate} (hu : u ∈ updates)
    {f : FragmentView} (hf : f.path = u.path) : f.wanted updates = f.updated (some u.requested) := by
  rw [wanted, hf, wantedSource_of_mem hnodup hu]

/-- A fragment that no update names is wanted as it is. -/
theorem FragmentView.wanted_of_not_mem {updates : List FragmentUpdate} {f : FragmentView}
    (hf : f.path ∉ updates.map FragmentUpdate.path) : f.wanted updates = f := by
  have hnone : wantedSource updates f.path = none := by
    rw [Option.eq_none_iff_forall_ne_some]
    intro r hr
    obtain ⟨u, hu, hpath, -⟩ := mem_of_wantedSource hr
    exact hf (List.mem_map.2 ⟨u, hu, hpath⟩)
  rw [wanted, hnone]
  rfl

/-- A record of the hash that a fragment has can be left out. So a batch may also be said without
the updates that change nothing. -/
theorem FragmentView.wanted_of_dropped {updates updates' : List FragmentUpdate}
    (hnodup : (updates.map FragmentUpdate.path).Nodup)
    (hnodup' : (updates'.map FragmentUpdate.path).Nodup) (hsub : ∀ u ∈ updates', u ∈ updates)
    {f : FragmentView} (hdropped : ∀ u ∈ updates, u ∉ updates' → u.path = f.path →
      u = .record f.path ∧ f.baseline = some (.ofText f.source)) :
    f.wanted updates' = f.wanted updates := by
  by_cases hmem' : f.path ∈ updates'.map FragmentUpdate.path
  · obtain ⟨u, hu, hpath⟩ := List.mem_map.1 hmem'
    rw [wanted_of_mem hnodup' hu hpath.symm, wanted_of_mem hnodup (hsub u hu) hpath.symm]
  · rw [wanted_of_not_mem hmem']
    by_cases hmem : f.path ∈ updates.map FragmentUpdate.path
    · obtain ⟨u, hu, hpath⟩ := List.mem_map.1 hmem
      obtain ⟨rfl, hbaseline⟩ := hdropped u hu (fun hu' => hmem' (List.mem_map.2 ⟨u, hu', hpath⟩))
        hpath
      rw [wanted_of_mem hnodup hu rfl]
      cases f
      exact congrArg (FragmentView.mk _ · _) hbaseline
    · rw [wanted_of_not_mem hmem]

/-- No batch changes the path of a fragment. -/
theorem FragmentView.wanted_path (updates : List FragmentUpdate) (f : FragmentView) :
    (f.wanted updates).path = f.path := by
  unfold FragmentView.wanted FragmentView.updated
  split <;> rfl

/-- A batch never takes away a hash. -/
theorem FragmentView.wanted_baseline {updates : List FragmentUpdate} {f : FragmentView}
    (h : (f.wanted updates).baseline = none) : f.baseline = none := by
  unfold FragmentView.wanted FragmentView.updated at h
  split at h
  · exact h
  · cases h
  · cases h

/-- The edits that a batch makes. -/
def ParsedSource.edits (p : ParsedSource) (updates : List FragmentUpdate) : List TextEdit :=
  p.fragments.flatMap fun f => f.edits p.source (f.view.wanted updates)

/-- The edits that the code makes are those of the batch. -/
theorem ParsedSource.flatMap_fragmentEdits (p : ParsedSource) (updates : List FragmentUpdate) :
    (p.fragments.flatMap fun f => fragmentEdits (wantedSource updates f.path) f) =
      p.edits updates := by
  unfold ParsedSource.edits
  congr 1
  funext f
  exact fragmentEdits_eq _ f

omit [Sha256] in
/-- Requested paths are checked by what a caller sees of the fragments. The code looks at the places
of the fragments, which have the same paths. -/
theorem ParsedSource.checkRequested_view (p : ParsedSource) {path : FragmentPath} :
    checkRequested (p.fragments.map (·.toFragmentPlace)) path = .ok () ↔
      ∃ f, p.view.filter (fun f => f.path = path) = [f] := by
  have hview : p.view.filter (fun f => f.path = path) =
      ((p.fragments.map (·.toFragmentPlace)).filter fun f => f.path = path).map
        (FragmentPlace.view p.source) := by
    rw [show p.view = (p.fragments.map (·.toFragmentPlace)).map (FragmentPlace.view p.source) from
      by rw [List.map_map]; rfl, List.filter_map]
    rfl
  rw [checkRequested_eq_ok, hview]
  refine ⟨fun h => ?_, fun h => ?_⟩
  · obtain ⟨f, hf⟩ := h
    exact ⟨f.view p.source, by rw [hf]; rfl⟩
  · obtain ⟨f, hf⟩ := h
    obtain ⟨f', hf', -⟩ := List.map_eq_singleton_iff.1 hf
    exact ⟨f', hf'⟩

/-- A batch is applied when its updates name fragments of the source and the new text is not too
long; a batch without edits gives back the source. -/
theorem ParsedSource.rewrite_eq_ok {p : ParsedSource} {updates : List FragmentUpdate}
    {out : Cow Str} : p.rewrite updates = .ok out ↔ Addressed updates p.view ∧
      (p.edits updates = [] ∧ out = .borrowed p.source ∨
        p.edits updates ≠ [] ∧
          (∃ n, (p.edits updates).foldlM (editLength p.source) (utf8Len p.source) = .ok n) ∧
          out = .owned (applyEdits p.source 0 (p.edits updates))) := by
  have hedits := p.flatMap_fragmentEdits updates
  have hcheck : (∀ path ∈ updates.map FragmentUpdate.path,
      checkRequested (p.fragments.map (·.toFragmentPlace)) path = .ok ()) ↔
        ∀ u ∈ updates, ∃ f, p.view.filter (fun f => f.path = u.path) = [f] := by
    rw [List.forall_mem_map]
    exact forall₂_congr fun u _ => p.checkRequested_view
  unfold ParsedSource.rewrite
  split
  · next hnil =>
    rw [List.isEmpty_iff] at hnil
    subst hnil
    have hnone : p.edits [] = [] := by
      rw [← hedits]
      exact List.flatMap_eq_nil_iff.2 fun f _ => rfl
    rw [Except.pure_eq_ok, hnone]
    constructor
    · intro h
      exact ⟨⟨.nil, by simp⟩, .inl ⟨rfl, h.symm⟩⟩
    · intro h
      obtain ⟨-, ⟨-, rfl⟩ | ⟨hne, -⟩⟩ := h
      · rfl
      · exact absurd rfl hne
  · simp only [Except.bind_eq_ok, forM_eq_ok]
    constructor
    · intro h
      obtain ⟨requested, hrequested, _, hkeys, h⟩ := h
      obtain ⟨hnodup, hfind⟩ := requestUpdate_eq_ok hrequested
      refine ⟨⟨hnodup, hcheck.1 fun path hpath => hkeys path
        ((requestUpdate_keys hrequested).2 hpath)⟩, ?_⟩
      simp only [hfind, hedits] at h
      split at h
      · next hnone =>
        exact .inl ⟨List.isEmpty_iff.1 hnone, (Except.pure_eq_ok.1 h).symm⟩
      · next hne =>
        simp only [Except.bind_eq_ok, Except.pure_eq_ok] at h
        obtain ⟨n, hn, rfl⟩ := h
        exact .inr ⟨fun hnil => hne (List.isEmpty_iff.2 hnil), ⟨n, hn⟩, rfl⟩
    · intro h
      obtain ⟨haddressed, h⟩ := h
      obtain ⟨requested, hrequested⟩ := requestUpdate_ok haddressed.nodup
      obtain ⟨-, hfind⟩ := requestUpdate_eq_ok hrequested
      refine ⟨requested, hrequested, (), fun path hpath => hcheck.2 haddressed.unique path
        ((requestUpdate_keys hrequested).1 hpath), ?_⟩
      simp only [hfind, hedits]
      rcases h with ⟨hnil, rfl⟩ | ⟨hne, ⟨n, hn⟩, rfl⟩
      · rw [if_pos (List.isEmpty_iff.2 hnil), Except.pure_eq_ok]
      · rw [if_neg (fun h => hne (List.isEmpty_iff.1 h))]
        simp only [Except.bind_eq_ok, Except.pure_eq_ok]
        exact ⟨n, hn, trivial⟩

/-- A batch whose updates name fragments of the source fails for the length of the text only. Such a
batch can be entered, and every path it names has one fragment. -/
theorem ParsedSource.rewrite_failsIn {p : ParsedSource} {updates : List FragmentUpdate}
    (h : Addressed updates p.view) : FailsIn (· = .sourceTooLarge) (p.rewrite updates) := by
  unfold ParsedSource.rewrite
  split
  · exact .ok _
  · obtain ⟨requested, hrequested⟩ := requestUpdate_ok h.nodup
    rw [hrequested]
    refine .bind (.ok _) fun requested' heq => ?_
    obtain rfl := Except.ok.inj heq
    refine .bind (.forM fun path hpath => ?_) fun _ _ => ?_
    · obtain ⟨u, hu, rfl⟩ := List.mem_map.1 ((requestUpdate_keys hrequested).1 hpath)
      rw [p.checkRequested_view.2 (h.unique u hu)]
      exact .ok _
    · dsimp only
      split
      · exact .ok _
      · exact .bind (.foldlM (fun _ _ _ => .okOr (by trivial) _) _) fun _ _ => .ok _

/-- What a batch does depends only on what it makes of the fragments. -/
theorem ParsedSource.rewrite_congr {p : ParsedSource} {updates updates' : List FragmentUpdate}
    {out : Cow Str} (h : p.rewrite updates = .ok out) (h' : Addressed updates' p.view)
    (hwanted : ∀ f ∈ p.view, f.wanted updates' = f.wanted updates) :
    p.rewrite updates' = .ok out := by
  have hedits : p.edits updates' = p.edits updates := by
    unfold ParsedSource.edits
    exact List.flatMap_congr fun f hf => by rw [hwanted _ (List.mem_map_of_mem hf)]
  rw [ParsedSource.rewrite_eq_ok] at h ⊢
  rw [hedits]
  exact ⟨h', h.2⟩

/-- A rewritten source has the sections of the source, each with what the batch makes of its
fragment. -/
theorem ParsedSource.rewrite_value {kind : Adls.NodeKind} {p : ParsedSource}
    {ss : List FragmentSection} {tail : List Line} (hs : p.Sections kind ss tail)
    {updates : List FragmentUpdate} {out : Cow Str} (h : p.rewrite updates = .ok out) :
    Addressed updates p.view ∧ out.value =
      (ss.flatMap fun s => s.updatedText (s.fragment.wanted updates)) ++ joinLines tail := by
  have hedits := @FragmentSection.applyEdits_sections _ p.source [] (joinLines tail) ss hs.ok
    hs.source_eq (FragmentView.wanted updates)
  rw [List.length_nil, ← hs.places, List.flatMap_map] at hedits
  obtain ⟨haddressed, hout⟩ := ParsedSource.rewrite_eq_ok.1 h
  have hedits : applyEdits p.source 0 (p.edits updates) = _ := hedits
  refine ⟨haddressed, ?_⟩
  rw [← hedits]
  rcases hout with ⟨hnil, rfl⟩ | ⟨-, -, rfl⟩
  · rw [hnil]
    rfl
  · rfl

end

end Zwirn.Fragment
