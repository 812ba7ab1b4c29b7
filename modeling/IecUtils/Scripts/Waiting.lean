/- Module: IecUtils/Scripts/Waiting
   source: putqueue of scripts/utils/db_utils, scan_drop of quemngr/quemngr.c
   digest: The file of a call that has written the trigger waits for the next scan, or it was taken. -/

import IecUtils.Scripts.Putqueue

set_option autoImplicit false
set_option relaxedAutoImplicit false

namespace IecUtils.Scripts.Waiting

open IecUtils.Foundation.Transition
open IecUtils.Queue.Files (Ino)
open IecUtils.Scripts.Putqueue

section Loss

variable {d d' : Drop} {e : PutEvent} {c : Nat} {i : Ino} {source : List UInt8}

def numbered : Stage → Bool
  | .moved _ => true
  | .finished _ => true
  | _ => false

def Waits (d : Drop) (c : Nat) (i : Ino) : Prop :=
  (Name.number i.toNat, i) ∈ d.entries ∧ (d.files i).owner = c

/-- A call that wrote the trigger has its file in the directory, or it was taken; before that the
inode number is not used again. -/
structure Kept (d : Drop) : Prop where
  settled : ∀ {c source i}, d.calls[c]? = some ⟨source, .finished i⟩ →
    Waits d c i ∨ c ∈ d.taken.map Taken.owner
  moving : ∀ {c source i}, d.calls[c]? = some ⟨source, .moved i⟩ →
    Waits d c i ∨ c ∈ d.taken.map Taken.owner ∧ i ∈ d.spool

/-- quemngr does not delete the file of a call that is not through with its last `sync`. -/
def Attentive (d : Drop) : PutEvent → Prop
  | .release i => ∀ call ∈ d.calls, call.stage ≠ .moved i
  | _ => True

instance (d : Drop) (e : PutEvent) : Decidable (Attentive d e) :=
  match e with
  | .release i => inferInstanceAs (Decidable (∀ call ∈ d.calls, call.stage ≠ .moved i))
  | .begin _ _ => isTrue trivial
  | .create _ _ => isTrue trivial
  | .write _ _ => isTrue trivial
  | .copy _ => isTrue trivial
  | .sync _ => isTrue trivial
  | .move _ => isTrue trivial
  | .finish _ => isTrue trivial
  | .fail _ => isTrue trivial
  | .take _ _ => isTrue trivial

private theorem Kept.congr (h : Kept d) (calls : ∀ (k : Nat) (call : Call),
      d'.calls[k]? = some call → numbered call.stage = true → d.calls[k]? = some call)
    (waits : ∀ k i, Waits d k i → Waits d' k i) (taken : d'.taken = d.taken)
    (spool : d'.spool = d.spool) : Kept d' := by
  refine ⟨?_, ?_⟩
  · intro c source i call
    rw [taken]
    exact (h.settled (calls c _ call rfl)).imp_left (waits c i)
  · intro c source i call
    rw [taken, spool]
    exact (h.moving (calls c _ call rfl)).imp_left (waits c i)

private theorem calls_of_set {x : Call} (call : d.calls[c]? = some x) {stage : Stage}
    (other : numbered stage = false) (k : Nat) (call' : Call)
    (found : (d.calls.set c ⟨source, stage⟩)[k]? = some call')
    (has : numbered call'.stage = true) : d.calls[k]? = some call' := by
  rw [lookup_set call] at found
  split at found
  · obtain rfl := Option.some.inj found
    rw [other] at has
    cases has
  · exact found

private theorem kept_created {tmp : List Char} (h : Kept d)
    (call : d.calls[c]? = some ⟨source, .named tmp⟩) (free : d.Free i) :
    Kept { d.advance c source (.copying tmp i) with
      entries := d.entries ++ [(.dropmsg tmp, i)]
      files := Function.update d.files i ⟨[], false, c⟩ } := by
  refine h.congr (calls_of_set call rfl) ?_ rfl rfl
  rintro k j ⟨here, owner⟩
  refine ⟨List.mem_append_left _ here, ?_⟩
  change (Function.update d.files i ⟨[], false, c⟩ j).owner = k
  rw [Function.update_of_ne (free.2.1 _ here)]
  exact owner

private theorem waits_change {data : List UInt8} {synced : Bool} {k : Nat} {j : Ino}
    (waits : Waits d k j) : Waits (d.change i data synced) k j := by
  refine ⟨waits.1, ?_⟩
  dsimp only [Drop.change]
  by_cases same : j = i
  · rw [same, Function.update_self]
    exact same ▸ waits.2
  · rw [Function.update_of_ne same]
    exact waits.2

private theorem kept_moved {tmp : List Char} (sound : Sound d) (h : Kept d)
    (call : d.calls[c]? = some ⟨source, .synced tmp i⟩) :
    Kept { ((d.remove (.dropmsg tmp)).remove (.number i.toNat)).advance c source (.moved i) with
      entries := ((d.remove (.dropmsg tmp)).remove (.number i.toNat)).entries ++
        [(.number i.toNat, i)] } := by
  obtain ⟨here, owner, _⟩ := sound.working call rfl
  have waits {k : Nat} {j : Ino} (before : Waits d k j) :
      (Name.number j.toNat, j) ∈ ((d.remove (.dropmsg tmp)).remove (.number i.toNat)).entries ++
        [(.number i.toNat, i)] := by
    by_cases same : j = i
    · rw [same]
      exact List.mem_append_right _ (List.mem_singleton_self _)
    · refine List.mem_append_left _ (mem_remove.mpr ⟨mem_remove.mpr ⟨before.1, ?_⟩, ?_⟩)
      · exact fun names => by cases names
      · intro names
        injection names with numbers
        exact same (UInt64.toNat_inj.mp numbers)
  refine ⟨?_, ?_⟩
  · intro k source' j call'
    change (d.calls.set c ⟨source, .moved i⟩)[k]? = _ at call'
    rw [lookup_set call] at call'
    split at call'
    · cases call'
    · exact (h.settled call').imp_left fun before => ⟨waits before, before.2⟩
  · intro k source' j call'
    change (d.calls.set c ⟨source, .moved i⟩)[k]? = _ at call'
    rw [lookup_set call] at call'
    split at call'
    · rename_i same
      cases call'
      exact .inl ⟨List.mem_append_right _ (List.mem_singleton_self _), owner.trans same.symm⟩
    · exact (h.moving call').imp_left fun before => ⟨waits before, before.2⟩

private theorem kept_finished (h : Kept d) (call : d.calls[c]? = some ⟨source, .moved i⟩) :
    Kept (d.advance c source (.finished i)) := by
  refine ⟨?_, ?_⟩
  · intro k source' j call'
    change (d.calls.set c ⟨source, .finished i⟩)[k]? = _ at call'
    rw [lookup_set call] at call'
    split at call'
    · rename_i same
      cases call'
      subst same
      exact (h.moving call).imp_right And.left
    · exact h.settled call'
  · intro k source' j call'
    change (d.calls.set c ⟨source, .finished i⟩)[k]? = _ at call'
    rw [lookup_set call] at call'
    split at call'
    · cases call'
    · exact h.moving call'

private theorem waits_cleanup {stage : Stage} (sound : Sound d) (h : Kept d)
    (call : d.calls[c]? = some ⟨source, stage⟩) {k : Nat} {j : Ino} (other : k ≠ c)
    (waits : Waits d k j) : Waits (cleanup d stage) k j := by
  obtain ⟨here, owner⟩ := waits
  have numbers {i : Ino} (same : (Name.number j.toNat) = .number i.toNat) : j = i := by
    injection same with same
    exact UInt64.toNat_inj.mp same
  cases stage with
  | named tmp => exact ⟨mem_remove.mpr ⟨here, fun names => by cases names⟩, owner⟩
  | copying tmp i => exact ⟨mem_remove.mpr ⟨here, fun names => by cases names⟩, owner⟩
  | copied tmp i => exact ⟨mem_remove.mpr ⟨here, fun names => by cases names⟩, owner⟩
  | synced tmp i =>
    refine ⟨mem_remove.mpr ⟨here, fun names => ?_⟩, owner⟩
    have working := (sound.working call rfl).1
    rw [numbers names] at here
    cases sound.tidy.inodes here working
  | moved i =>
    refine ⟨mem_remove.mpr ⟨here, fun names => ?_⟩, owner⟩
    rw [numbers names] at here owner
    rcases h.moving call with own | ⟨_, spooled⟩
    · exact other (owner.symm.trans own.2)
    · exact sound.tidy.apart here spooled
  | finished i => exact ⟨here, owner⟩
  | failed => exact ⟨here, owner⟩

private theorem kept_failed {stage : Stage} (sound : Sound d) (h : Kept d)
    (call : d.calls[c]? = some ⟨source, stage⟩) :
    Kept ((cleanup d stage).advance c source .failed) := by
  have fields : (cleanup d stage).calls = d.calls ∧ (cleanup d stage).taken = d.taken ∧
      (cleanup d stage).spool = d.spool := by
    cases stage <;> exact ⟨rfl, rfl, rfl⟩
  have lookup {k : Nat} {call' : Call} (found : ((cleanup d stage).calls.set c
      ⟨source, .failed⟩)[k]? = some call') (active : call'.stage ≠ .failed) :
      k ≠ c ∧ d.calls[k]? = some call' := by
    rw [fields.1, lookup_set call] at found
    split at found
    · obtain rfl := Option.some.inj found
      exact absurd rfl active
    · exact ⟨by assumption, found⟩
  refine ⟨?_, ?_⟩
  · intro k source' j call'
    obtain ⟨other, found⟩ := lookup call' (fun same => by cases same)
    change Waits (cleanup d stage) k j ∨ k ∈ (cleanup d stage).taken.map Taken.owner
    rw [fields.2.1]
    exact (h.settled found).imp_left (waits_cleanup sound h call other)
  · intro k source' j call'
    obtain ⟨other, found⟩ := lookup call' (fun same => by cases same)
    change Waits (cleanup d stage) k j ∨
      k ∈ (cleanup d stage).taken.map Taken.owner ∧ j ∈ (cleanup d stage).spool
    rw [fields.2.1, fields.2.2]
    exact (h.moving found).imp_left (waits_cleanup sound h call other)

private theorem kept_took (sound : Sound d) (h : Kept d) {name : Name}
    (here : (name, i) ∈ d.entries) (named : name.strtoul = i) :
    Kept { d.remove name with
      spool := i :: d.spool
      taken := d.taken ++ [⟨(d.files i).owner, (d.files i).data, (d.files i).synced⟩] } := by
  have number := took_number sound here named
  have owners : (d.taken ++ [Taken.mk (d.files i).owner (d.files i).data (d.files i).synced]).map
      Taken.owner = d.taken.map Taken.owner ++ [(d.files i).owner] := List.map_append
  have waits {k : Nat} {j : Ino} (before : Waits d k j) :
      Waits (d.remove name) k j ∨ (d.files i).owner = k ∧ j = i := by
    by_cases same : j = i
    · exact .inr ⟨same ▸ before.2, same⟩
    · refine .inl ⟨mem_remove.mpr ⟨before.1, ?_⟩, before.2⟩
      rw [number]
      intro names
      injection names with numbers
      exact same (UInt64.toNat_inj.mp numbers)
  refine ⟨?_, ?_⟩
  · intro k source j call
    dsimp only
    rw [owners, List.mem_append]
    rcases h.settled call with before | gone
    · rcases waits before with still | ⟨now, _⟩
      · exact .inl still
      · exact .inr (.inr (by rw [now]; exact List.mem_singleton_self _))
    · exact .inr (.inl gone)
  · intro k source j call
    dsimp only
    rw [owners, List.mem_append]
    rcases h.moving call with before | ⟨gone, spooled⟩
    · rcases waits before with still | ⟨now, same⟩
      · exact .inl still
      · refine .inr ⟨.inr (by rw [now]; exact List.mem_singleton_self _), ?_⟩
        rw [same]
        exact List.mem_cons_self
    · exact .inr ⟨.inl gone, List.mem_cons_of_mem _ spooled⟩

theorem putStep_kept (sound : Sound d) (h : Kept d) (attentive : Attentive d e)
    (happens : putStep d e = some d') : Kept d' := by
  cases putStep_puts happens with
  | begun unused =>
    refine h.congr ?_ (fun k i waits => waits) rfl rfl
    intro k call found has
    rcases lookup_append.mp found with old | ⟨_, rfl⟩
    · exact old
    · cases has
  | created call free => exact kept_created h call free
  | wrote call => exact h.congr (fun k call' found _ => found) (fun k i => waits_change) rfl rfl
  | copied call =>
    exact h.congr (calls_of_set call rfl) (fun k i => waits_change) rfl rfl
  | synced call =>
    exact h.congr (calls_of_set call rfl) (fun k i => waits_change) rfl rfl
  | moved call => exact kept_moved sound h call
  | finished call => exact kept_finished h call
  | failed call => exact kept_failed sound h call
  | took here named => exact kept_took sound h here named
  | released i =>
    refine ⟨h.settled, ?_⟩
    intro k source j call
    refine (h.moving call).imp_right fun gone => ⟨gone.1, List.mem_filter.mpr ⟨gone.2, ?_⟩⟩
    have other : j ≠ i := by
      rintro rfl
      exact attentive _ (List.mem_of_getElem? call) rfl
    exact decide_eq_true other

theorem fresh_kept : Kept Drop.fresh := by
  refine ⟨?_, ?_⟩
  · intro c source i call
    cases call
  · intro c source i call
    cases call

/-- If quemngr deletes no file before the call that made it is through with its last `sync`: the
file of every call that has written the trigger is in `drop`, whole, on the disk and such that the
next scan takes it, or it was taken with the bytes of its source. -/
theorem nothing_lost {es : List PutEvent} (attentive : Guarded putStep Attentive Drop.fresh es)
    (reached : run putStep Drop.fresh es = some d) :
    ∀ c source i, d.calls[c]? = some ⟨source, .finished i⟩ →
      ((d.files i).owner = c ∧ (d.files i).data = source ∧ (d.files i).synced = true ∧
        (putStep d (.take (.number i.toNat) i)).isSome = true) ∨
      ∃ t ∈ d.taken, t.owner = c ∧ t.data = source := by
  have both : Sound d ∧ Kept d :=
    guarded_invariant (I := fun d => Sound d ∧ Kept d)
      (fun _ _ _ inv meets happens =>
        ⟨putStep_sound inv.1 happens, putStep_kept inv.1 inv.2 meets happens⟩)
      ⟨fresh_sound, fresh_kept⟩ attentive reached
  obtain ⟨sound, kept⟩ := both
  intro c source i call
  have own {data : List UInt8} {synced : Bool} (done : Done d.calls c data synced) :
      data = source ∧ synced = true := by
    obtain ⟨call', found, _, bytes, disk⟩ := done
    rw [call] at found
    obtain rfl := Option.some.inj found
    exact ⟨bytes, disk⟩
  rcases kept.settled call with ⟨here, owner⟩ | taken
  · left
    have done := (sound.numbered here).2
    rw [owner] at done
    refine ⟨owner, (own done).1, (own done).2, ?_⟩
    have number : (Name.number i.toNat).strtoul = i := by
      have range := i.toNat_lt
      rw [← UInt64.toNat_inj, Name.strtoul, Queue.Files.strtoul, if_pos (by omega),
        UInt64.toNat_ofNat']
      omega
    rw [putStep, if_pos ⟨here, number⟩]
    rfl
  · right
    obtain ⟨t, member, owner⟩ := List.mem_map.mp taken
    have done := sound.whole t member
    rw [owner] at done
    exact ⟨t, member, owner, (own done).1⟩

theorem nothing_lost_twoCalls : ∃ d, run putStep Drop.fresh twoCalls = some d ∧
    d.calls[1]? = some ⟨[3], .finished 8⟩ ∧
      (((d.files 8).owner = 1 ∧ (d.files 8).data = [3] ∧ (d.files 8).synced = true ∧
        (putStep d (.take (.number 8) 8)).isSome = true) ∨ ∃ t ∈ d.taken, t.owner = 1) := by
  have reached : run putStep Drop.fresh twoCalls = some _ := rfl
  have attentive : Guarded putStep Attentive Drop.fresh twoCalls := by decide
  refine ⟨_, reached, rfl, ?_⟩
  refine (nothing_lost attentive reached 1 [3] 8 rfl).imp_right ?_
  rintro ⟨t, member, owner, _⟩
  exact ⟨t, member, owner⟩

end Loss

end IecUtils.Scripts.Waiting
