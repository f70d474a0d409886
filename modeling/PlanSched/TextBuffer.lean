/-
# Texts in buffers

A library for texts that are written with `sprintf` into memory from `realloc`.  A buffer
has room for a number of characters; what stands in it is a text, or nothing that could be
read: memory that was not written yet, or a text that was cut off.  Nothing here names the
scheduler.

* `print` writes a text if it fits with its terminator, `append` writes one behind the text
  that is there;
* `appendAll_ok_iff`, `printAll_ok_iff`: a sequence of texts is appended exactly if all of
  them fit together.

Trust base: `[propext, Classical.choice, Quot.sound]`.
-/
import PlanSched.CheckedRun

namespace TextBuffer

open CheckedRun

/-! ## Buffers -/

/-- The room of a buffer and the text in it. -/
structure Buffer where
  room : ℕ
  text : Option (List Char)
  /-- The text ends within the buffer. -/
  fits : ∀ t ∈ text, t.length < room
  deriving Repr

/-- A buffer as `strdup` makes it. -/
def strdup (t : List Char) : Buffer where
  room := t.length + 1
  text := some t
  fits := by
    intro t' ht'
    rw [← Option.mem_some_iff.mp ht']
    omega

/-- `realloc`: a text that still fits is kept. -/
def realloc (buffer : Option Buffer) (room : ℕ) : Buffer where
  room := room
  text := (buffer.bind Buffer.text).filter (fun t => t.length < room)
  fits := by
    intro t ht
    rw [Option.mem_def, Option.filter_eq_some_iff] at ht
    simpa using ht.2

/-- Read the text. -/
def Buffer.read (buffer : Buffer) : Run (List Char) :=
  match buffer.text with
  | none => .error .badIndex
  | some t => .ok t

/-- Write a text. -/
def Buffer.print (buffer : Buffer) (t : List Char) : Run Buffer :=
  if h : t.length < buffer.room then
    .ok { room := buffer.room, text := some t, fits := by simpa using h }
  else .error .badIndex

/-- Write a text behind the one that is there. -/
def Buffer.append (buffer : Buffer) (t : List Char) : Run Buffer := do
  let before ← buffer.read
  buffer.print (before ++ t)

/-! ## What is written -/

/-- A text is written exactly if it fits. -/
theorem print_ok_iff {buffer buffer' : Buffer} {t : List Char} :
    buffer.print t = .ok buffer' ↔
      t.length < buffer.room ∧ buffer'.room = buffer.room ∧ buffer'.text = some t := by
  unfold Buffer.print
  split
  · next h =>
      rw [Except.ok.injEq]
      constructor
      · rintro rfl
        exact ⟨h, rfl, rfl⟩
      · rintro ⟨-, hroom, htext⟩
        cases buffer'
        cases hroom
        cases htext
        rfl
  · next h =>
      constructor
      · intro herror
        cases herror
      · rintro ⟨hfits, -⟩
        exact absurd hfits h

/-- And appended, if it fits behind the text that is there. -/
theorem append_ok_iff {buffer buffer' : Buffer} {before t : List Char}
    (hbefore : buffer.text = some before) :
    buffer.append t = .ok buffer' ↔ before.length + t.length < buffer.room ∧
      buffer'.room = buffer.room ∧ buffer'.text = some (before ++ t) := by
  unfold Buffer.append Buffer.read
  rw [hbefore, ← List.length_append]
  exact print_ok_iff

/-- A sequence of texts is appended exactly if all of them fit together. -/
theorem appendAll_ok_iff (texts : List (List Char)) : ∀ {buffer buffer' : Buffer}
    {before : List Char}, buffer.text = some before →
    (texts.foldlM Buffer.append buffer = .ok buffer' ↔
      before.length + texts.flatten.length < buffer.room ∧ buffer'.room = buffer.room ∧
        buffer'.text = some (before ++ texts.flatten)) := by
  induction texts with
  | nil =>
      intro buffer buffer' before hbefore
      rw [List.foldlM_nil, pure_ok, List.flatten_nil, List.append_nil, List.length_nil, add_zero]
      constructor
      · rintro rfl
        exact ⟨buffer.fits before (by rw [hbefore]; rfl), rfl, hbefore⟩
      · rintro ⟨-, hroom, htext⟩
        rw [← hbefore] at htext
        cases buffer
        cases buffer'
        cases hroom
        cases htext
        rfl
  | cons t texts ih =>
      intro buffer buffer' before hbefore
      rw [List.foldlM_cons, bind_ok, List.flatten_cons, List.length_append, ← List.append_assoc]
      constructor
      · rintro ⟨next, hnext, hrest⟩
        obtain ⟨-, hroom, htext⟩ := (append_ok_iff hbefore).mp hnext
        obtain ⟨hfits, hroom', htext'⟩ := (ih htext).mp hrest
        rw [List.length_append] at hfits
        exact ⟨by omega, hroom'.trans hroom, htext'⟩
      · rintro ⟨hfits, hroom, htext⟩
        -- the first text fits, since all of them do
        have hfirst : (before ++ t).length < buffer.room := by
          rw [List.length_append]
          omega
        let next : Buffer := ⟨buffer.room, some (before ++ t), by simpa using hfirst⟩
        refine ⟨next, (append_ok_iff hbefore).mpr ⟨by omega, rfl, rfl⟩, ?_⟩
        have hnext : next.text = some (before ++ t) := rfl
        refine (ih hnext).mpr ⟨?_, hroom, htext⟩
        rw [List.length_append]
        show _ < buffer.room
        omega

/-- The same for a text that is written first: what was in the buffer is of no importance. -/
theorem printAll_ok_iff {buffer buffer' : Buffer} {t : List Char} {texts : List (List Char)} :
    (buffer.print t >>= texts.foldlM Buffer.append) = .ok buffer' ↔
      (t ++ texts.flatten).length < buffer.room ∧ buffer'.room = buffer.room ∧
        buffer'.text = some (t ++ texts.flatten) := by
  rw [bind_ok, List.length_append]
  constructor
  · rintro ⟨next, hnext, hrest⟩
    obtain ⟨-, hroom, htext⟩ := print_ok_iff.mp hnext
    obtain ⟨hfits, hroom', htext'⟩ := (appendAll_ok_iff texts htext).mp hrest
    exact ⟨by omega, hroom'.trans hroom, htext'⟩
  · rintro ⟨hfits, hroom, htext⟩
    have hfirst : t.length < buffer.room := by omega
    let next : Buffer := ⟨buffer.room, some t, by simpa using hfirst⟩
    have hnext : next.text = some t := rfl
    exact ⟨next, print_ok_iff.mpr ⟨hfirst, rfl, rfl⟩,
      (appendAll_ok_iff texts hnext).mpr ⟨hfits, hroom, htext⟩⟩

end TextBuffer
