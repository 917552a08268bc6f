import SlotVM.Proofs.Link.Drafting
import Mathlib.Data.List.Forall2

namespace SlotVM

theorem filterMap_snoc {α β : Type} (f : α → Option β) (l : List α) (a : α) :
    (l ++ [a]).filterMap f = l.filterMap f ++ (f a).toList := by
  cases h : f a <;> simp [h]

namespace Draft

/-- A definition was made by one of the tasks, at the offset and class count it had then. -/
def Origin (p : Program) (d : Draft) (done : List Task) (key : Key) (entry : Entry) : Prop :=
  ∃ before task after, done = before ++ task :: after ∧
    Defines p d (p.endOffset 0 (before.filterMap Task.line?)) (before.filterMap Task.class?).length
      task key entry

structure Tracks (p : Program) (done : List Task) (d : Draft) : Prop where
  sound : d.Sound p
  offset : d.offset = p.endOffset 0 (done.filterMap Task.line?)
  body : List.Forall₂ (Sketched p d) ((done.filterMap Task.line?).filter p.emits) d.body.toList
  entries : ∀ key entry, d.find? key = some entry → Origin p d done key entry
  defined : ∀ sort ∈ done.filterMap (Task.defines? p),
    ∃ key, d.Denotes key sort ∧ (d.find? key).isSome
  once : (done.filterMap (Task.defines? p)).Nodup
  classes : List.Forall₂ (Laid p d) (done.filterMap Task.class?) d.classes.classes.toList
  globals : List.Forall₂ (fun text symbol => d.symbols.name? symbol = some text)
    (done.filterMap (Task.global? p)) d.globals.toList

section
variable {p : Program} {done : List Task} {task : Task} {d d' : Draft}

theorem empty_tracks (p : Program) : Tracks p [] empty := by
  refine ⟨empty_sound p, rfl, .nil, ?_, ?_, List.nodup_nil, .nil, .nil⟩
  · intro key entry found
    cases found
  · intro sort member
    cases member

theorem Origin.grows {key : Key} {entry : Entry} (origin : Origin p d done key entry)
    (grown : Grows p d d') (tasks : List Task) : Origin p d' (done ++ tasks) key entry := by
  obtain ⟨before, task, after, rfl, defines⟩ := origin
  exact ⟨before, task, after ++ tasks, by simp, defines.grows grown⟩

theorem Tracks.step (tracks : Tracks p done d) (step : Step p task d d') :
    Tracks p (done ++ [task]) d' := by
  have grown := step.grows
  have sound := tracks.sound.grows grown
  obtain ⟨sketches, body, sketched⟩ := step.body
  obtain ⟨layouts, classes, laid⟩ := step.classes
  obtain ⟨symbols, globals, named⟩ := step.globals
  refine ⟨sound, ?_, ?_, ?_, ?_, ?_, ?_, ?_⟩
  · rw [filterMap_snoc, Program.endOffset_append, ← tracks.offset]
    exact step.offset
  · rw [filterMap_snoc, List.filter_append, body]
    exact List.rel_append (tracks.body.imp fun _ _ sketched => sketched.grows grown) sketched
  · intro key entry found
    rcases step.entries key entry found with found | defines
    · exact (tracks.entries key entry found).grows grown [task]
    · refine ⟨done, task, [], rfl, ?_⟩
      have count : (done.filterMap Task.class?).length = d.classes.size := tracks.classes.length_eq
      rw [← tracks.offset, count]
      exact defines
  · intro sort member
    rw [filterMap_snoc, List.mem_append, Option.mem_toList] at member
    rcases member with member | member
    · obtain ⟨key, denotes, defined⟩ := tracks.defined sort member
      obtain ⟨entry, found⟩ := Option.isSome_iff_exists.mp defined
      exact ⟨key, denotes.grows grown, by simp [grown.find? found]⟩
    · obtain ⟨key, denotes, -, defined⟩ := step.defined sort member
      exact ⟨key, denotes, defined⟩
  · -- a second definition would have found the first one's entry
    rw [filterMap_snoc]
    cases sorted : task.defines? p with
    | none => simpa using tracks.once
    | some sort =>
      refine tracks.once.append (List.nodup_singleton sort) ?_
      rw [Option.toList_some, List.disjoint_singleton]
      intro member
      obtain ⟨key, denotes, defined⟩ := tracks.defined sort member
      obtain ⟨key', denotes', fresh, -⟩ := step.defined sort sorted
      have same := (denotes.grows grown).unique sound.symbols denotes'
      rw [same, fresh] at defined
      cases defined
  · rw [filterMap_snoc, classes]
    exact List.rel_append (tracks.classes.imp fun _ _ laid => laid.grows grown) laid
  · rw [filterMap_snoc, globals]
    exact List.rel_append (tracks.globals.imp fun _ _ named => grown.name? named) named

theorem Tracks.performAll (small : p.values.size < 2 ^ 32) {tasks : List Task}
    (tracks : Tracks p done d) (performed : d.performAll p tasks = .ok d') :
    Tracks p (done ++ tasks) d' := by
  induction tasks generalizing done d with
  | nil =>
    cases performed
    simpa using tracks
  | cons task tasks ih =>
    unfold Draft.performAll at performed
    cases first : d.perform p task with
    | error e => simp [first] at performed
    | ok d₁ =>
      rw [first] at performed
      have next := tracks.step (perform_step tracks.sound small first)
      simpa using ih next performed

end
end Draft
end SlotVM
