import Dfsha.Control.Script

/-!
# The monolith and its volume

A control without data nodes keeps the blocks on a volume of its own.  `PutBlock` writes a block
between its two transactions, while it holds the pin of the block for itself; `collect` computes
in one transaction what is retained, and removes everything else from the volume afterwards,
except for what is pinned then.  So the transactions of all requests run between the parts of
both.

## Main definitions

* `containerSize` — the size of a block on the volume.
* `Site`, `Site.Step` — a control with its volume, and its steps.
* `Site.Input`, `Site.perform` — scripts for a site.
-/

namespace Dfsha

variable (app : App)

/-- The size of the container of a block: the magic and the length of the header, the header, and
the records, each with its length and its tag. -/
def containerSize (header size : Nat) : Nat :=
  12 + header + size + 20 * ((size + chunkBytes - 1) / chunkBytes)

/-- A `PutBlock` whose block is on the volume; it holds the pin of the block. -/
structure Writing where
  token : Id
  header : PutBlockHeader
  stored : Nat
  digest : Digest
deriving DecidableEq

/-- The block that a request writes. -/
def Writing.block (x : Writing) : Id := x.header.block.blockVersionId

/-- The container has the size that it has with some header. -/
structure Writing.Sized (x : Writing) (header : Nat) : Prop where
  header_le : header ≤ 4084
  stored_eq : x.stored = containerSize header x.header.block.sizeBytes

instance (x : Writing) (header : Nat) : Decidable (x.Sized header) :=
  decidable_of_iff (header ≤ 4084 ∧ x.stored = containerSize header x.header.block.sizeBytes)
    ⟨fun h => ⟨h.1, h.2⟩, fun h => ⟨h.header_le, h.stored_eq⟩⟩

/-- A control with its volume. -/
structure Site where
  world : World
  /-- The blocks on the volume. -/
  objects : List Id
  /-- The requests whose block is there and not yet recorded. -/
  writing : List Writing
  /-- What the collection that goes on retains. -/
  sweeping : Option (List Id)

namespace Site

/-- The volume of a new control is empty. -/
def initial (clk : Clock) (username : Text) (password : Digest) : Site :=
  ⟨World.initial app clk username password, [], [], none⟩

/-- A request that was admitted ends. -/
def discharge (s : Site) (header : PutBlockHeader) : Site :=
  { s with
    world :=
      { s.world with
        access := { s.world.access with admitted := s.world.access.admitted.erase header } } }

end Site

/-- The calls that are nothing but a transaction. -/
def Call.plain : Call → Bool
  | .collectMetadata | .recordBlock .. => false
  | _ => true

namespace Site

/-- Whether a step records a block. -/
inductive Event
  | silent
  | recorded (x : Writing)

/-- One step of a site. -/
inductive Step : Site → Event → Site → Prop
  /-- A transaction, or time passes. -/
  | control {s : Site} {e : Dfsha.Event} {w : World} :
      Dfsha.Step app (fun c => c.plain = true) s.world e w → w.stage = s.world.stage →
      Step s .silent { s with world := w }
  /-- The control starts: its first transaction collects, -/
  | restart {s : Site} {w : World} {retained : List Id} :
      s.world.stage = .down → (collectMetadata app true) s.world = .ok (retained, w) →
      Step s .silent { s with world := { w with stage := .collected }, sweeping := some retained }
  /-- and it goes on when the volume is swept. -/
  | start {s : Site} {t : T Unit} {stage : Stage} {w : World} :
      s.world.stage ≠ .down → s.sweeping = none → s.world.stage.next app = some (t, stage) →
      t s.world = .ok ((), w) → Step s .silent { s with world := { w with stage := stage } }
  /-- The transaction of a collection. -/
  | collect {s : Site} {w : World} {retained : List Id} :
      s.world.stage = .serving → s.sweeping = none →
      (collectMetadata app false) s.world = .ok (retained, w) →
      Step s .silent { s with world := w, sweeping := some retained }
  /-- The volume is swept.  What is retained or being written stays; a reader may keep more. -/
  | sweep {s : Site} {retained kept : List Id} :
      s.sweeping = some retained → kept ⊆ s.objects →
      (∀ k ∈ s.objects, k ∈ retained ∨ k ∈ s.writing.map Writing.block → k ∈ kept) →
      Step s .silent { s with objects := kept, sweeping := none }
  /-- A request that was admitted gets the pin of its block and writes it, where it is not. -/
  | persist {s : Site} {x : Writing} {header : Nat} :
      s.world.stage = .serving → x.header ∈ s.world.access.admitted →
      x.block ∉ s.writing.map Writing.block → x.block ∉ s.objects → x.Sized header →
      Step s .silent { s with objects := x.block :: s.objects, writing := x :: s.writing }
  /-- Its second transaction. -/
  | record {s : Site} {x : Writing} {w : World} :
      s.world.stage = .serving → x ∈ s.writing →
      (recordBlock app x.token x.header x.stored x.digest) s.world = .ok ((), w) →
      Step s (.recorded x) { s with world := w, writing := s.writing.erase x }
  /-- A request fails, before its block is on the volume -/
  | fail {s : Site} (header : PutBlockHeader) : Step s .silent (s.discharge header)
  /-- or afterwards. -/
  | abandon {s : Site} {x : Writing} :
      x ∈ s.writing →
      Step s .silent { s.discharge x.header with writing := s.writing.erase x }
  | crash {s : Site} (clk : Clock) :
      Step s .silent { s with world := s.world.crash clk, writing := [], sweeping := none }

/-- A run whose steps all meet a condition. -/
def RunIf (meets : Site → Event → Site → Prop) : Site → Site → Prop :=
  Relation.ReflTransGen fun s t => ∃ e, Step app s e t ∧ meets s e t

/-! ## Scripts -/

/-- Something that happens to a site and succeeds. -/
inductive Input
  | control (i : Dfsha.Input)
  | restart
  | start
  | collect
  | sweep
  | persist (x : Writing) (header : Nat)
  | record (x : Writing)

/-- The inputs to a control that are steps of a site. -/
def plainInput : Dfsha.Input → Bool
  | .advance .. | .serve .. => true
  | .call c => c.plain
  | .start | .crash _ => false

/-- What one input makes of a site. -/
def Input.perform (s : Site) : Input → Option Site
  | .control i =>
      if plainInput i = true then
        (i.perform app s.world).bind fun w =>
          if w.stage = s.world.stage then some { s with world := w } else none
      else none
  | .restart =>
      if s.world.stage = .down then
        match (collectMetadata app true) s.world with
        | .ok (retained, w) =>
            some { s with world := { w with stage := .collected }, sweeping := some retained }
        | .error _ => none
      else none
  | .start =>
      if s.world.stage ≠ .down ∧ s.sweeping = none then
        (Dfsha.Input.start.perform app s.world).map fun w => { s with world := w }
      else none
  | .collect =>
      if s.world.stage = .serving ∧ s.sweeping = none then
        match (collectMetadata app false) s.world with
        | .ok (retained, w) => some { s with world := w, sweeping := some retained }
        | .error _ => none
      else none
  | .sweep =>
      s.sweeping.map fun retained =>
        { s with
          objects := s.objects.filter fun k => k ∈ retained ∨ k ∈ s.writing.map Writing.block,
          sweeping := none }
  | .persist x header =>
      if s.world.stage = .serving ∧ x.header ∈ s.world.access.admitted ∧
          x.block ∉ s.writing.map Writing.block ∧ x.block ∉ s.objects ∧ x.Sized header then
        some { s with objects := x.block :: s.objects, writing := x :: s.writing }
      else none
  | .record x =>
      if s.world.stage = .serving ∧ x ∈ s.writing then
        (s.world.after (recordBlock app x.token x.header x.stored x.digest)).map fun w =>
          { s with world := w, writing := s.writing.erase x }
      else none

/-- Perform inputs one after the other. -/
def perform : List Input → Site → Option Site
  | [], s => some s
  | i :: is, s => (i.perform app s).bind (perform is)

variable {app} {s t : Site}

/-- An input is a step, and records what it says. -/
theorem Input.perform_step {i : Input} (h : i.perform app s = some t) :
    ∃ e, (∀ x, e = .recorded x → i = .record x) ∧ Step app s e t := by
  have silent : Step app s .silent t →
      ∃ e, (∀ x, e = .recorded x → i = .record x) ∧ Step app s e t :=
    fun hstep => ⟨.silent, (fun _ he => by cases he), hstep⟩
  cases i with
  | control i =>
      rw [Input.perform] at h
      split at h
      · rename_i hplain
        obtain ⟨w, hw, h⟩ := Option.bind_eq_some_iff.mp h
        split at h
        · rename_i hstage
          rw [Option.some.injEq] at h
          subst h
          obtain ⟨e, hstep⟩ : ∃ e, Dfsha.Step app (fun c => c.plain = true) s.world e w := by
            cases i with
            | advance phases free =>
                rw [Dfsha.Input.perform, Option.some.injEq] at hw
                subst hw
                exact ⟨_, .advance _ phases free⟩
            | serve token ctx cmd =>
                rw [Dfsha.Input.perform] at hw
                split at hw
                · rename_i hserving
                  obtain ⟨r, hr⟩ := after_eq_some hw
                  exact ⟨_, .serve hserving hr⟩
                · cases hw
            | call c =>
                rw [Dfsha.Input.perform] at hw
                split at hw
                · rename_i hc
                  obtain ⟨r, hr⟩ := after_eq_some hw
                  exact ⟨_, .call hc.1 hplain hc.2 hr⟩
                · cases hw
            | start => cases hplain
            | crash clk => cases hplain
          exact silent (.control hstep hstage)
        · cases h
      · cases h
  | restart =>
      rw [Input.perform] at h
      split at h
      · rename_i hdown
        split at h
        · rename_i retained w hrun
          rw [Option.some.injEq] at h
          subst h
          exact silent (.restart hdown hrun)
        · cases h
      · cases h
  | start =>
      rw [Input.perform] at h
      split at h
      · rename_i hc
        obtain ⟨w, hw, rfl⟩ := Option.map_eq_some_iff.mp h
        rw [Dfsha.Input.perform] at hw
        split at hw
        · rename_i t stage hnext
          obtain ⟨v, hv, rfl⟩ := Option.map_eq_some_iff.mp hw
          obtain ⟨r, hr⟩ := after_eq_some hv
          exact silent (.start hc.1 hc.2 hnext hr)
        · cases hw
      · cases h
  | collect =>
      rw [Input.perform] at h
      split at h
      · rename_i hc
        split at h
        · rename_i retained w hrun
          rw [Option.some.injEq] at h
          subst h
          exact silent (.collect hc.1 hc.2 hrun)
        · cases h
      · cases h
  | sweep =>
      obtain ⟨retained, hsweep, rfl⟩ := Option.map_eq_some_iff.mp h
      refine silent (.sweep hsweep (List.filter_subset_self _) fun k hk hkept => ?_)
      exact List.mem_filter.mpr ⟨hk, decide_eq_true hkept⟩
  | persist x header =>
      rw [Input.perform] at h
      split at h
      · rename_i hc
        obtain ⟨hserving, hadmitted, hpin, hfree, hsized⟩ := hc
        rw [Option.some.injEq] at h
        subst h
        exact silent (.persist hserving hadmitted hpin hfree hsized)
      · cases h
  | record x =>
      rw [Input.perform] at h
      split at h
      · rename_i hc
        obtain ⟨w, hw, rfl⟩ := Option.map_eq_some_iff.mp h
        obtain ⟨r, hr⟩ := after_eq_some hw
        exact ⟨_, (fun y he => by cases he; rfl), .record hc.1 hc.2 hr⟩
      · cases h

/-- A script is a run that meets what each of its inputs meets. -/
theorem perform_runIf {meets : Site → Event → Site → Prop} {is : List Input}
    (hmeets : ∀ i ∈ is, ∀ u e v, (∀ x, e = .recorded x → i = .record x) → meets u e v) :
    ∀ {s}, perform app is s = some t → RunIf app meets s t := by
  induction is with
  | nil =>
      intro s h
      rw [perform, Option.some.injEq] at h
      exact h ▸ .refl
  | cons i is ih =>
      intro s h
      rw [perform] at h
      obtain ⟨u, hu, h⟩ := Option.bind_eq_some_iff.mp h
      obtain ⟨e, he, hstep⟩ := Input.perform_step hu
      exact .head ⟨e, hstep, hmeets i List.mem_cons_self s e u he⟩
        (ih (fun j hj => hmeets j (List.mem_cons_of_mem _ hj)) h)

/-- **A script is a run.** -/
theorem perform_run {is : List Input} (h : perform app is s = some t) :
    RunIf app (fun _ _ _ => True) s t := perform_runIf (fun _ _ _ _ _ _ => trivial) h

end Site

end Dfsha
