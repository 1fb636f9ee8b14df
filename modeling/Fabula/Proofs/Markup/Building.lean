import Fabula.Markup.Range
import Fabula.Proofs.Outcome
import Mathlib

namespace Fabula

/-- The changes that building a tree is made of. Each is at the innermost open span: text or a
leaf is added to it, a span is opened in it, or it is closed. -/
inductive Move where
  | write (s : String)
  | leaf (kind : SpanKind)
  | enter (kind : SpanKind)
  | leave

/-- The spans open after a move, innermost first. -/
def Move.after (kinds : List SpanKind) : Move → List SpanKind
  | write _ => kinds
  | leaf _ => kinds
  | enter kind => kind :: kinds
  | leave => kinds.tail

namespace Event

/-- The spans open after an event, innermost first. -/
def after (kinds : List SpanKind) : Event → List SpanKind
  | text _ => kinds
  | start kind => kind :: kinds
  | stop kind => kinds.erase kind
  | single _ => kinds

/-- The end of a span: those inside it are left before it and entered again after it. -/
def leaving (kind : SpanKind) : List SpanKind → List Move
  | [] => []
  | k :: ks => .leave :: if k = kind then [] else leaving kind ks ++ [.enter k]

def moves (kinds : List SpanKind) : Event → List Move
  | text s => [.write s]
  | start kind => [.enter kind]
  | stop kind => if kind ∈ kinds then leaving kind kinds else []
  | single kind => [.leaf kind]

variable {kind : SpanKind} {kinds : List SpanKind}

theorem foldl_leaving (kind : SpanKind) (kinds : List SpanKind) :
    (leaving kind kinds).foldl Move.after kinds = kinds.erase kind := by
  induction kinds with
  | nil => rfl
  | cons k ks ih =>
    rw [leaving, List.foldl_cons, Move.after, List.tail_cons]
    by_cases hk : k = kind
    · rw [if_pos hk, hk, List.erase_cons_head]
      rfl
    · rw [if_neg hk, List.foldl_append, ih, List.erase_cons_tail (by simpa using hk)]
      rfl

theorem foldl_moves (e : Event) (kinds : List SpanKind) :
    (e.moves kinds).foldl Move.after kinds = e.after kinds := by
  cases e with
  | text s => rfl
  | start kind => rfl
  | stop kind =>
    rw [moves]
    split
    · exact foldl_leaving kind kinds
    · rename_i hmem
      exact (List.erase_of_not_mem hmem).symm
  | single kind => rfl

theorem mem_coalesce {events : List Event} {e : Event} (h : e ∈ coalesce events) :
    (∃ s, e = text s) ∨ e ∈ events := by
  fun_induction coalesce events with
  | case1 => cases h
  | case2 a rest b rest' hrest ih =>
    rcases List.mem_cons.mp h with rfl | h
    · exact .inl ⟨_, rfl⟩
    · exact (ih (hrest ▸ List.mem_cons_of_mem _ h)).imp_right (List.mem_cons_of_mem _)
  | case3 a rest hne ih =>
    rcases List.mem_cons.mp h with rfl | h
    · exact .inl ⟨_, rfl⟩
    · exact (ih h).imp_right (List.mem_cons_of_mem _)
  | case4 e' rest hne ih =>
    rcases List.mem_cons.mp h with rfl | h
    · exact .inr List.mem_cons_self
    · exact (ih h).imp_right (List.mem_cons_of_mem _)

end Event

namespace Builder

variable {b b' : Builder} {maxDepth : Nat} {e : Event} {events : List Event} {kind : SpanKind}

def kinds (b : Builder) : List SpanKind := b.frames.map Frame.kind

theorem length_kinds (b : Builder) : b.kinds.length = b.frames.length :=
  List.length_map _

def close (b : Builder) : Builder :=
  match b.frames with
  | [] => b
  | f :: fs => add f.close ⟨fs, b.parts⟩

def move (b : Builder) : Move → Builder
  | .write s => b.onParts (Range.addText s)
  | .leaf kind => b.add (.node kind [])
  | .enter kind => { b with frames := Frame.fresh kind :: b.frames }
  | .leave => b.close

@[simp]
theorem kinds_onParts (g : List Range → List Range) (b : Builder) :
    (b.onParts g).kinds = b.kinds := by
  obtain ⟨frames, parts⟩ := b
  cases frames with
  | nil => rfl
  | cons top rest => rfl

theorem kinds_move (b : Builder) (m : Move) : (b.move m).kinds = m.after b.kinds := by
  cases m with
  | write s => exact kinds_onParts _ b
  | leaf kind => exact kinds_onParts _ b
  | enter kind => rfl
  | leave =>
    obtain ⟨frames, parts⟩ := b
    cases frames with
    | nil => rfl
    | cons f fs => exact kinds_onParts _ ⟨fs, parts⟩

theorem kinds_moves (b : Builder) (moves : List Move) :
    (moves.foldl move b).kinds = moves.foldl Move.after b.kinds := by
  induction moves generalizing b with
  | nil => rfl
  | cons m moves ih => rw [List.foldl_cons, ih, kinds_move, List.foldl_cons]

def adding (inner : Option Range) (b : Builder) : Builder := inner.elim b fun r => b.add r

theorem close_adding (inner : Option Range) (f : Frame) (fs : List Frame) (parts : List Range) :
    (adding inner ⟨f :: fs, parts⟩).close =
      adding (some (Frame.close { f with parts := inner.toList ++ f.parts })) ⟨fs, parts⟩ := by
  cases inner with
  | none => rfl
  | some r => rfl

/-- Unwinding leaves spans one by one, and enters those again that were inside the one that
ends. -/
theorem unwind_eq (kind : SpanKind) (inner : Option Range) (parts : List Range)
    (frames : List Frame) :
    unwind kind inner parts frames =
      (Event.leaving kind (frames.map Frame.kind)).foldl move
        (adding inner ⟨frames, parts⟩) := by
  induction frames generalizing inner with
  | nil =>
    cases inner with
    | none => rfl
    | some r => rfl
  | cons f fs ih =>
    rw [unwind, List.map_cons, Event.leaving, List.foldl_cons, move, close_adding]
    by_cases hf : f.kind = kind
    · rw [if_pos hf, if_pos hf]
      rfl
    · rw [if_neg hf, if_neg hf, List.foldl_append, ← ih]
      rfl

theorem leave_eq (kind : SpanKind) (b : Builder) :
    b.leave kind = ((Event.stop kind).moves b.kinds).foldl move b := by
  have hany : b.frames.any (·.kind == kind) = true ↔ kind ∈ b.kinds := by
    simp [kinds]
  rw [leave, Event.moves]
  by_cases hmem : kind ∈ b.kinds
  · rw [if_pos (hany.mpr hmem), if_pos hmem, unwind_eq]
    rfl
  · rw [if_neg (mt hany.mp hmem), if_neg hmem]
    rfl

theorem finish_eq (inner : Option Range) (parts : List Range) (frames : List Frame) :
    finish inner parts frames =
      ((frames.map fun _ => Move.leave).foldl move
        (adding inner ⟨frames, parts⟩)).parts.reverse := by
  induction frames generalizing inner with
  | nil =>
    cases inner with
    | none => rfl
    | some r => rfl
  | cons f fs ih => rw [finish, ih, List.map_cons, List.foldl_cons, move, close_adding]

theorem finish_none (b : Builder) :
    finish none b.parts b.frames =
      ((b.frames.map fun _ => Move.leave).foldl move b).parts.reverse :=
  finish_eq none b.parts b.frames

theorem frames_leaves (b : Builder) :
    ((b.frames.map fun _ => Move.leave).foldl move b).frames = [] := by
  have hall (frames : List Frame) :
      (frames.map fun _ => Move.leave).foldl Move.after (frames.map Frame.kind) = [] := by
    induction frames with
    | nil => rfl
    | cons f fs ih => exact ih
  have hkinds := kinds_moves b (b.frames.map fun _ => .leave)
  rw [kinds, kinds, hall] at hkinds
  exact List.map_eq_nil_iff.mp hkinds

/-- All that a step does: it makes the moves of its event, or refuses to open a span. -/
theorem step_eq_ok_iff : step maxDepth b e = .ok b' ↔
    (∀ kind, e = .start kind → b.kinds.length < maxDepth) ∧
      b' = (e.moves b.kinds).foldl move b := by
  cases e with
  | text s => simp [step, Event.moves, move, eq_comm]
  | start kind =>
    rw [step, length_kinds]
    split
    · rename_i hlimit
      simp [hlimit]
    · rename_i hlimit
      simp [Event.moves, move, eq_comm, Nat.lt_of_not_le hlimit]
  | stop kind =>
    rw [step, leave_eq]
    simp [eq_comm]
  | single kind => simp [step, Event.moves, move, eq_comm]

theorem step_eq_error_iff {err : MarkupError} :
    step maxDepth b e = .error err ↔
      err = .tooDeep maxDepth ∧ (∃ kind, e = .start kind) ∧ maxDepth ≤ b.kinds.length := by
  rw [length_kinds]
  cases e with
  | text s => simp [step]
  | start kind =>
    rw [step]
    split
    · rename_i hlimit
      simp [hlimit, eq_comm]
    · rename_i hlimit
      simp [hlimit]
  | stop kind => simp [step]
  | single kind => simp [step]

theorem eq_of_step (h : step maxDepth b e = .ok b') : b' = (e.moves b.kinds).foldl move b :=
  (step_eq_ok_iff.mp h).2

theorem kinds_step (h : step maxDepth b e = .ok b') : b'.kinds = e.after b.kinds := by
  rw [eq_of_step h, kinds_moves, Event.foldl_moves]

section Coalescing

theorem addText_addText (s t : String) (parts : List Range) :
    Range.addText t (Range.addText s parts) = Range.addText (s ++ t) parts := by
  cases parts with
  | nil => rfl
  | cons r rest =>
    cases r with
    | text u => simp [Range.addText, String.append_assoc]
    | node kind children => rfl

theorem step_text_append (maxDepth : Nat) (b : Builder) (s t : String) :
    step maxDepth b (.text s) >>= (step maxDepth · (.text t)) =
      step maxDepth b (.text (s ++ t)) := by
  obtain ⟨frames, parts⟩ := b
  cases frames with
  | nil => simp [step, onParts, bind, Except.bind, addText_addText]
  | cons top rest => simp [step, onParts, bind, Except.bind, addText_addText]

theorem foldlM_coalesce (maxDepth : Nat) (events : List Event) (b : Builder) :
    (Event.coalesce events).foldlM (step maxDepth) b = events.foldlM (step maxDepth) b := by
  fun_induction Event.coalesce events generalizing b with
  | case1 => rfl
  | case2 s rest t rest' hrest ih =>
    simp only [List.foldlM_cons, ← ih, hrest, ← step_text_append, bind_assoc]
  | case3 s rest hrest ih => simp only [List.foldlM_cons, ih]
  | case4 e rest he ih => simp only [List.foldlM_cons, ih]

end Coalescing

end Builder

end Fabula
