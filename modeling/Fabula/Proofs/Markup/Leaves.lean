import Fabula.Proofs.Markup.Nesting

namespace Fabula

inductive Leaf where
  | text (s : String)
  | single (kind : SpanKind)
  deriving DecidableEq

structure Placed where
  path : List SpanKind
  leaf : Leaf
  deriving DecidableEq

/-- The second list is the first with some texts joined that follow each other under the same
spans. -/
inductive Placed.Joins : List Placed → List Placed → Prop where
  | nil : Joins [] []
  | add {pieces leaves : List Placed} (piece : Placed) (before : Joins pieces leaves) :
      Joins (pieces ++ [piece]) (leaves ++ [piece])
  | join {pieces leaves : List Placed} {path : List SpanKind} {s : String} (t : String)
      (before : Joins pieces (leaves ++ [⟨path, .text s⟩])) :
      Joins (pieces ++ [⟨path, .text t⟩]) (leaves ++ [⟨path, .text (s ++ t)⟩])

namespace Range

mutual

/-- The leaves of a range from left to right; those of a span stand under it. -/
def leaves (above : List SpanKind) : Range → List Placed
  | text s => [⟨above, .text s⟩]
  | node kind children =>
    if kind.isSingle then [⟨above, .single kind⟩] else leavesOf (kind :: above) children

def leavesOf (above : List SpanKind) : List Range → List Placed
  | [] => []
  | r :: rest => r.leaves above ++ leavesOf above rest

end

end Range

namespace Event

variable {kinds next : List SpanKind} {front : List Event}

def leaf? : Event → Option Leaf
  | text s => some (.text s)
  | single kind => some (.single kind)
  | _ => none

/-- The leaves that events add, each under the spans that are open when it is added. -/
def placed (kinds : List SpanKind) : List Event → List Placed
  | [] => []
  | e :: rest => (e.leaf?.map (Placed.mk kinds)).toList ++ placed (e.after kinds) rest

theorem placed_append (h : Leads kinds front next) (rest : List Event) :
    placed kinds (front ++ rest) = placed kinds front ++ placed next rest := by
  induction h with
  | nil kinds => rfl
  | cons fits _ ih => rw [List.cons_append, placed, placed, ih, List.append_assoc]

/-- Only kinds that hold nothing are added as single leaves, and only others are begun as
spans. -/
def Apt : Event → Prop
  | start kind => kind.isSingle = false
  | single kind => kind.isSingle = true
  | _ => True

theorem mem_leaving {m : Move} {kind : SpanKind} (h : m ∈ leaving kind kinds) :
    m = .leave ∨ ∃ k ∈ kinds, m = .enter k := by
  induction kinds with
  | nil => cases h
  | cons k ks ih =>
    rw [leaving] at h
    rcases List.mem_cons.mp h with rfl | h
    · exact .inl rfl
    · split at h
      · cases h
      · rcases List.mem_append.mp h with h | h
        · rcases ih h with rfl | ⟨k', hk', rfl⟩
          · exact .inl rfl
          · exact .inr ⟨k', List.mem_cons_of_mem _ hk', rfl⟩
        · rw [List.mem_singleton.mp h]
          exact .inr ⟨k, List.mem_cons_self, rfl⟩

end Event

namespace Range

/-- The leaves of some ranges, each under the spans around it, for a tree that comes from the
events. A tree does not say whether a node that holds nothing was added as a leaf or begun as a
span, so such a node may be read either way, if there is an event for it. -/
inductive Reads (events : List Event) : List SpanKind → List Range → List Placed → Prop where
  | nil {above : List SpanKind} : Reads events above [] []
  | text {above : List SpanKind} {rest : List Range} {leaves : List Placed} (s : String)
      (after : Reads events above rest leaves) :
      Reads events above (.text s :: rest) (⟨above, .text s⟩ :: leaves)
  | single {above : List SpanKind} {kind : SpanKind} {rest : List Range} {leaves : List Placed}
      (added : .single kind ∈ events) (after : Reads events above rest leaves) :
      Reads events above (.node kind [] :: rest) (⟨above, .single kind⟩ :: leaves)
  | span {above : List SpanKind} {kind : SpanKind} {children rest : List Range}
      {inner leaves : List Placed}
      (begun : .start kind ∈ events) (within : Reads events (kind :: above) children inner)
      (after : Reads events above rest leaves) :
      Reads events above (.node kind children :: rest) (inner ++ leaves)

namespace Reads

variable {events : List Event} {above : List SpanKind} {front back rs : List Range}
  {leaves more : List Placed}

theorem append (h : Reads events above front leaves) (h' : Reads events above back more) :
    Reads events above (front ++ back) (leaves ++ more) := by
  induction h with
  | nil => exact h'
  | text s after ih => exact .text s (ih h')
  | single added after ih => exact .single added (ih h')
  | span begun within after ihWithin ihAfter =>
    rw [List.append_assoc]
    exact .span begun within (ihAfter h')

theorem split (h : Reads events above (front ++ back) leaves) :
    ∃ first last, leaves = first ++ last ∧ Reads events above front first ∧
      Reads events above back last := by
  induction front generalizing leaves with
  | nil => exact ⟨[], leaves, rfl, .nil, h⟩
  | cons r front ih =>
    cases h with
    | text s after =>
      obtain ⟨first, last, rfl, hfirst, hlast⟩ := ih after
      exact ⟨_ :: first, last, rfl, .text s hfirst, hlast⟩
    | single added after =>
      obtain ⟨first, last, rfl, hfirst, hlast⟩ := ih after
      exact ⟨_ :: first, last, rfl, .single added hfirst, hlast⟩
    | span begun within after =>
      obtain ⟨first, last, rfl, hfirst, hlast⟩ := ih after
      exact ⟨_, last, by rw [List.append_assoc], .span begun within hfirst, hlast⟩

theorem eq_leavesOf (h : Reads events above rs leaves) (he : ∀ e ∈ events, e.Apt) :
    leaves = leavesOf above rs := by
  induction h with
  | nil => rfl
  | text s after ih => rw [ih, leavesOf, Range.leaves, List.singleton_append]
  | @single above kind rest leaves added after ih =>
    have hkind : kind.isSingle = true := he _ added
    rw [ih, leavesOf, Range.leaves, if_pos hkind, List.singleton_append]
  | @span above kind children rest inner leaves begun within after ihWithin ihAfter =>
    have hkind : kind.isSingle = false := he _ begun
    rw [ihWithin, ihAfter, leavesOf, Range.leaves, hkind]
    rfl

end Reads

end Range

namespace Builder

open Range

inductive Reads (events : List Event) : Builder → List Placed → Prop where
  | document {parts : List Range} {leaves : List Placed}
      (within : Range.Reads events [] parts.reverse leaves) : Reads events ⟨[], parts⟩ leaves
  | frame {f : Frame} {fs : List Frame} {parts : List Range} {outer inner : List Placed}
      (begun : .start f.kind ∈ events) (around : Reads events ⟨fs, parts⟩ outer)
      (within : Range.Reads events (f.kind :: fs.map Frame.kind) f.parts.reverse inner) :
      Reads events ⟨f :: fs, parts⟩ (outer ++ inner)

namespace Reads

variable {events : List Event} {b : Builder} {leaves more : List Placed} {r : Range}
  {kind : SpanKind} {parts : List Range} {f : Frame} {fs : List Frame}

theorem begun (h : Reads events b leaves) : ∀ kind ∈ b.kinds, .start kind ∈ events := by
  induction h with
  | document within =>
    intro kind hk
    cases hk
  | frame begun around within ih =>
    intro kind hk
    rcases List.mem_cons.mp hk with rfl | hk
    · exact begun
    · exact ih kind hk

theorem onTop {g : List Range → List Range} {outer : List Placed}
    (begun : .start f.kind ∈ events) (around : Reads events ⟨fs, parts⟩ outer)
    (within : Range.Reads events (f.kind :: fs.map Frame.kind) (g f.parts).reverse leaves) :
    Reads events (onParts g ⟨f :: fs, parts⟩) (outer ++ leaves) :=
  .frame (f := { f with parts := g f.parts }) begun around within

theorem add (h : Reads events b leaves) (hr : Range.Reads events b.kinds [r] more) :
    Reads events (b.add r) (leaves ++ more) := by
  cases h with
  | document within =>
    apply Reads.document
    rw [List.reverse_cons]
    exact within.append hr
  | frame begun around within =>
    rw [List.append_assoc]
    apply onTop begun around
    rw [List.reverse_cons]
    exact within.append hr

theorem enter (h : Reads events b leaves) (hk : .start kind ∈ events) :
    Reads events (b.move (.enter kind)) leaves := by
  have hframe := Reads.frame (f := Frame.fresh kind) hk h .nil
  rwa [List.append_nil] at hframe

theorem leave (h : Reads events b leaves) : Reads events (b.move .leave) leaves := by
  cases h with
  | document within => exact .document within
  | frame begun around within =>
    have hclosed := Range.Reads.span begun within .nil
    rw [List.append_nil] at hclosed
    exact around.add hclosed

end Reads

/-- The pieces are the leaves of a tree being built, with texts split that the tree has
joined. -/
def Shows (events : List Event) (b : Builder) (pieces : List Placed) : Prop :=
  ∃ leaves, Reads events b leaves ∧ Placed.Joins pieces leaves

namespace Shows

variable {events rest : List Event} {b b' : Builder} {pieces : List Placed}
  {kinds : List SpanKind}
  {parts : List Range} {leaves : List Placed} {maxDepth : Nat} {e : Event} {kind : SpanKind}
  {ms : List Move}

theorem addText (h : Range.Reads events kinds parts.reverse leaves) (s : String) :
    Range.Reads events kinds (Range.addText s parts).reverse (leaves ++ [⟨kinds, .text s⟩]) ∨
      ∃ before t, leaves = before ++ [⟨kinds, .text t⟩] ∧
        Range.Reads events kinds (Range.addText s parts).reverse
          (before ++ [⟨kinds, .text (t ++ s)⟩]) := by
  rw [Range.addText.eq_def]
  split
  · rename_i t rest
    rw [List.reverse_cons] at h ⊢
    obtain ⟨before, last, rfl, hbefore, hlast⟩ := h.split
    cases hlast with
    | text _ after =>
      cases after
      exact .inr ⟨before, t, rfl, hbefore.append (.text _ .nil)⟩
  · rw [List.reverse_cons]
    exact .inl (h.append (.text s .nil))

theorem write (h : Shows events b pieces) (s : String) :
    Shows events (b.move (.write s)) (pieces ++ [⟨b.kinds, .text s⟩]) := by
  obtain ⟨leaves, hreads, hjoins⟩ := h
  cases hreads with
  | document within =>
    rcases addText within s with hadded | ⟨before, t, rfl, hjoined⟩
    · exact ⟨_, .document hadded, .add _ hjoins⟩
    · exact ⟨_, .document hjoined, .join s hjoins⟩
  | frame begun around within =>
    rcases addText within s with hadded | ⟨before, t, rfl, hjoined⟩
    · have hreads := Reads.onTop begun around hadded
      rw [← List.append_assoc] at hreads
      exact ⟨_, hreads, .add _ hjoins⟩
    · have hreads := Reads.onTop begun around hjoined
      rw [← List.append_assoc] at hreads hjoins
      exact ⟨_, hreads, .join s hjoins⟩

theorem leaf (h : Shows events b pieces) (hk : .single kind ∈ events) :
    Shows events (b.move (.leaf kind)) (pieces ++ [⟨b.kinds, .single kind⟩]) := by
  obtain ⟨leaves, hreads, hjoins⟩ := h
  exact ⟨_, hreads.add (.single hk .nil), .add _ hjoins⟩

theorem moves (h : Shows events b pieces)
    (hms : ∀ m ∈ ms, m = .leave ∨ ∃ kind, .start kind ∈ events ∧ m = .enter kind) :
    Shows events (ms.foldl move b) pieces := by
  induction ms generalizing b with
  | nil => exact h
  | cons m ms ih =>
    obtain ⟨hm, hms⟩ := List.forall_mem_cons.mp hms
    obtain ⟨leaves, hreads, hjoins⟩ := h
    refine ih ?_ hms
    rcases hm with rfl | ⟨kind, hk, rfl⟩
    · exact ⟨leaves, hreads.leave, hjoins⟩
    · exact ⟨leaves, hreads.enter hk, hjoins⟩

theorem step (h : Shows events b pieces) (he : e ∈ events)
    (hs : Builder.step maxDepth b e = .ok b') :
    Shows events b' (pieces ++ (e.leaf?.map (Placed.mk b.kinds)).toList) := by
  rw [eq_of_step hs]
  cases e with
  | text s => exact h.write s
  | start kind =>
    have hentered : Shows events ([Move.enter kind].foldl move b) pieces :=
      h.moves (List.forall_mem_singleton.mpr (.inr ⟨kind, he, rfl⟩))
    rwa [← List.append_nil pieces] at hentered
  | stop kind =>
    have hleft : Shows events (((Event.stop kind).moves b.kinds).foldl move b) pieces := by
      apply h.moves
      intro m hm
      rw [Event.moves] at hm
      split at hm
      · obtain ⟨leaves, hreads, -⟩ := h
        rcases Event.mem_leaving hm with rfl | ⟨k, hk, rfl⟩
        · exact .inl rfl
        · exact .inr ⟨k, hreads.begun k hk, rfl⟩
      · cases hm
    rwa [← List.append_nil pieces] at hleft
  | single kind => exact h.leaf he

theorem run (h : Shows events b pieces) (hrest : rest ⊆ events)
    (hs : rest.foldlM (Builder.step maxDepth) b = .ok b') :
    Shows events b' (pieces ++ Event.placed b.kinds rest) := by
  induction rest generalizing b pieces with
  | nil =>
    cases hs
    simpa [Event.placed] using h
  | cons e rest ih =>
    rw [List.foldlM_cons] at hs
    obtain ⟨next, hnext, hs⟩ := bind_eq_ok_iff.mp hs
    obtain ⟨he, hrest⟩ := List.cons_subset.mp hrest
    have hshows := ih (h.step he hnext) hrest hs
    rw [kinds_step hnext] at hshows
    simpa [Event.placed] using hshows

theorem finish (h : Shows events b pieces) :
    ∃ leaves, Range.Reads events [] (Builder.finish none b.parts b.frames) leaves ∧
      Placed.Joins pieces leaves := by
  have hleaves : ∀ m ∈ b.frames.map fun _ => Move.leave,
      m = .leave ∨ ∃ kind, .start kind ∈ events ∧ m = .enter kind := by
    intro m hm
    obtain ⟨f, -, rfl⟩ := List.mem_map.mp hm
    exact .inl rfl
  obtain ⟨leaves, hreads, hjoins⟩ := h.moves hleaves
  refine ⟨leaves, ?_, hjoins⟩
  have hframes := frames_leaves b
  rw [finish_none]
  generalize (b.frames.map fun _ => Move.leave).foldl move b = last at hreads hframes
  cases hreads with
  | document within => exact within
  | frame => cases hframes

end Shows

end Builder

namespace Range

variable {maxDepth : Nat} {events : List Event} {b : Builder}

/-- The leaves of a tree are those of its events, each under the spans that are open at its
event. -/
theorem reads_ofEvents (h : events.foldlM (Builder.step maxDepth) .empty = .ok b) :
    ∃ leaves, Reads events [] (Builder.finish none b.parts b.frames) leaves ∧
      Placed.Joins (Event.placed [] events) leaves := by
  have hempty : Builder.Shows events .empty [] := ⟨[], .document .nil, .nil⟩
  exact (hempty.run (List.Subset.refl events) h).finish

theorem joins_ofEvents (he : ∀ e ∈ events, e.Apt)
    (h : events.foldlM (Builder.step maxDepth) .empty = .ok b) :
    Placed.Joins (Event.placed [] events)
      (leavesOf [] (Builder.finish none b.parts b.frames)) := by
  obtain ⟨leaves, hreads, hjoins⟩ := reads_ofEvents h
  rwa [hreads.eq_leavesOf he] at hjoins

/-- Any events that build a tree, balanced or not, leave their texts and single leaves in it in
order, each under the spans that are open at its event, with texts joined that follow each other
in one span. -/
theorem leaves_follow_events (maxDepth : Nat) (events : List Event) (tree : Range)
    (h : ofEvents maxDepth events = .ok tree) :
    ∃ children leaves, tree = .node .document children ∧ Reads events [] children leaves ∧
      Placed.Joins (Event.placed [] events) leaves ∧
      ((∀ e ∈ events, e.Apt) → leaves = leavesOf [] children) := by
  obtain ⟨b, hb, h⟩ := bind_eq_ok_iff.mp h
  cases h
  obtain ⟨leaves, hreads, hjoins⟩ := reads_ofEvents hb
  exact ⟨_, leaves, rfl, hreads, hjoins, hreads.eq_leavesOf⟩

end Range

def Event.tangle : List Event :=
  [.start .emphasis, .text "a", .start .hidden, .text "b", .stop .emphasis,
    .text "c", .text "d", .single .lineBreak, .stop .insert, .start .quotation]

theorem Range.tangle_follows_events :
    ∃ tree, ofEvents 3 Event.tangle = .ok tree ∧
      ∃ children leaves, tree = .node .document children ∧
        Reads Event.tangle [] children leaves ∧
        Placed.Joins
          [⟨[.emphasis], .text "a"⟩, ⟨[.hidden, .emphasis], .text "b"⟩, ⟨[.hidden], .text "c"⟩,
            ⟨[.hidden], .text "d"⟩, ⟨[.hidden], .single .lineBreak⟩] leaves := by
  obtain ⟨children, leaves, htree, hreads, hjoins, -⟩ :=
    leaves_follow_events 3 Event.tangle _ rfl
  exact ⟨_, rfl, children, leaves, htree, hreads, hjoins⟩

end Fabula
