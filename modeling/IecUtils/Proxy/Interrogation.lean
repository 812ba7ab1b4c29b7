/- Module: IecUtils/Proxy/Interrogation
   source: iecproxy/iecproxy.c, with hook_connect, the SIGUSR1 handling of quemngr/quemngr.c and end_defque of scripts/asdusend
   digest: GI_END lines are matched by GI_CON lines within a connection, unless a '^' of an earlier connection is read. -/

import IecUtils.Foundation.Bracket
import IecUtils.Proxy.Poll
import Mathlib.Data.List.Perm.Subperm

set_option autoImplicit false
set_option relaxedAutoImplicit false

namespace IecUtils.Proxy.Interrogation

open IecUtils.Foundation.Bracket
open IecUtils.Foundation.Transition
open IecUtils.Proxy.Poll

def caret (chunks : List (List UInt8)) : Bool := chunks.any fun chunk => chunk.head? = some 94

/-- iecproxy with a trace: the lines and the calls of `hook_connect` at the last "+", the
call that the '^' of the accepted client answers, and all the calls that were answered. -/
structure Round where
  proxy : ProxyState
  base : Nat
  hooks : Nat
  owner : Option Nat
  used : List Nat

def Round.fresh : Round where
  proxy := ProxyState.fresh
  base := 0
  hooks := 0
  owner := none
  used := []

def Round.lines (s : Round) : List Sent := s.proxy.toLink.drop s.base

/-- What `poll` finds ready, and the call of `hook_connect` that led to the client if it
sends a '^'. -/
structure Arrival where
  ready : Ready
  cause : Option Nat := none

def Arrival.line (e : Arrival) : Option LinkLine := e.ready.line.map fun l => classify l.1

/-- quemngr sends one SIGUSR2 for each SIGUSR1, and asdusend one '^' for each SIGUSR2. -/
def Caused (s : Round) (e : Arrival) : Prop :=
  match e.ready.incoming with
  | none => e.cause = none
  | some (chunks, _) =>
      e.cause.isSome = caret chunks ∧ ∀ k ∈ e.cause, k < s.proxy.hookConnects ∧ k ∉ s.used

instance (s : Round) (e : Arrival) : Decidable (Caused s e) := by
  unfold Caused
  split <;> infer_instance

/-- After `END_INIT` the loop goes on at once, and what else is ready stays so. -/
def roundStep (s : Round) (e : Arrival) : Option Round :=
  if Possible s.proxy e.ready ∧ Caused s e then
    let next := { s with proxy := pollBody s.proxy e.ready }
    if e.line = some .endInit then some next
    else
      some { next with
        base := if e.line = some .plus then s.proxy.toLink.length else s.base
        hooks := if e.line = some .plus then s.proxy.hookConnects else s.hooks
        owner := if e.ready.incoming.isSome then e.cause
          else if e.ready.readable then none else s.owner
        used := e.cause.toList ++ s.used }
  else none

/-- No '^' is read that answers a call of `hook_connect` made before the last "+". -/
def Current (s : Round) (e : Arrival) : Prop :=
  e.line ≠ some .endInit → e.ready.readable = true → (fd0Stage s.proxy e.ready).fd2.isSome →
    ∀ k ∈ s.owner, (if e.line = some .plus then s.proxy.hookConnects else s.hooks) ≤ k

instance (s : Round) (e : Arrival) : Decidable (Current s e) := by
  unfold Current
  infer_instance

/-- The '^' of the accepted client that is still to be read counts if it answers a call of
this connection. -/
def Round.pending (s : Round) : Nat := (s.owner.toList.filter fun k => s.hooks ≤ k).length

def Round.recent (s : Round) : List Nat := s.used.filter fun k => s.hooks ≤ k

/-- Every GI_END but those that answer a call has its own GI_CON, and so has every call. -/
structure Bracketed (s : Round) : Prop where
  base : s.base ≤ s.proxy.toLink.length
  within : Within .giCon .giEnd 0 s.lines
  nodup : s.used.Nodup
  below : ∀ k ∈ s.used, k < s.proxy.hookConnects
  hooks : s.hooks ≤ s.proxy.hookConnects
  known : ∀ k ∈ s.owner, k < s.proxy.hookConnects
  owned : ∀ c, s.proxy.fd2 = some c → caret c.chunks = true → s.owner.isSome
  account : s.lines.count .giEnd + (s.proxy.hookConnects - s.hooks) + s.pending ≤
    s.lines.count .giCon + s.recent.length

section Stages

variable {p q : ProxyState} {s : Round}

/-- The stages of the loop that are run. A client that comes and data of a connection
are not there together. -/
private theorem pollBody_stages {w : Ready} (possible : Possible p w)
    (goes : w.line.map (fun l => classify l.1) ≠ some .endInit) :
    pollBody p w = match w.incoming with
      | none => fd2Stage (fd0Stage p w) w
      | some (chunks, ending) => acceptClient (fd0Stage p w) chunks ending := by
  obtain ⟨_, incoming, readable, _⟩ := possible
  have apart (come : w.incoming.isSome) : w.readable = false := by
    cases read : w.readable with
    | false => rfl
    | true =>
      have none := (incoming come).2
      have some := (readable read).1
      rw [none] at some
      cases some
  have stages (r : ProxyState) (n : Int) : fd1Stage r w n = match w.incoming with
      | none => fd2Stage r w
      | some (chunks, ending) => acceptClient r chunks ending := by
    unfold fd1Stage
    cases come : w.incoming with
    | none => rfl
    | some c =>
      obtain ⟨chunks, ending⟩ := c
      simp [fd2Stage, apart (by rw [come]; rfl)]
  unfold pollBody
  cases line : w.line with
  | none =>
    simp only [stages]
    rw [fd0Stage, line]
  | some l =>
    obtain ⟨buf, mark⟩ := l
    rw [line] at goes
    have other : classify buf ≠ .endInit := fun same => goes (by rw [Option.map_some, same])
    simp only [if_neg other, stages]
    split
    · rename_i last
      cases come : w.incoming with
      | some c => simp [Ready.nready, line, come] at last; split_ifs at last <;> omega
      | none =>
        cases read : w.readable with
        | false => simp [fd2Stage, read]
        | true => simp [Ready.nready, line, come, read] at last
    · rfl

private theorem pollBody_endInit {w : Ready}
    (skips : w.line.map (fun l => classify l.1) = some .endInit) : pollBody p w = p := by
  unfold pollBody
  cases line : w.line with
  | none =>
    rw [line] at skips
    cases skips
  | some l =>
    obtain ⟨buf, mark⟩ := l
    rw [line] at skips
    have last : classify buf = .endInit := Option.some.inj skips
    simp only [if_pos last]

private theorem plain_asdu (gi : List (List UInt8)) :
    Plain Sent.giCon Sent.giEnd (gi.map Sent.giAsdu) := by
  intro x member
  obtain ⟨line, _, rfl⟩ := List.mem_map.mp member
  exact ⟨nofun, nofun⟩

private theorem plain_single {x : Sent} (con : x ≠ .giCon) (fin : x ≠ .giEnd) :
    Plain Sent.giCon Sent.giEnd [x] := by
  intro y member
  obtain rfl := List.mem_singleton.mp member
  exact ⟨con, fin⟩

private theorem plain_mark : Plain Sent.giCon Sent.giEnd [.mark] := plain_single nofun nofun

/-- What the read loop writes: nothing but data and the answers to an interrogation, and
a GI_END exactly if it comes to a '^', which closes the connection. -/
private theorem readLoop_lines (gi : List (List UInt8)) (ending : Ending)
    (chunks done : List (List UInt8)) (p : ProxyState) :
    let r := (readLoop gi ending chunks done p).2
    r.hookConnects = p.hookConnects ∧ ∃ more, Plain Sent.giCon Sent.giEnd more ∧
      ((caret chunks = true ∧ r.toLink = p.toLink ++ more ++ [.giEnd] ∧ r.fd2 = none) ∨
        (caret chunks = false ∧ r.toLink = p.toLink ++ more ∧
          (r.fd2 = none ∨ r.fd2 = p.fd2))) := by
  induction chunks generalizing done p with
  | nil =>
    unfold readLoop
    cases ending with
    | eof => exact ⟨rfl, [], nofun, .inr ⟨rfl, (List.append_nil _).symm, .inr rfl⟩⟩
    | reset => exact ⟨rfl, [], nofun, .inr ⟨rfl, (List.append_nil _).symm, .inl rfl⟩⟩
  | cons chunk chunks ih =>
    unfold readLoop
    split
    · rename_i hat
      refine ⟨rfl, gi.map Sent.giAsdu, plain_asdu gi, .inl ⟨?_, rfl, rfl⟩⟩
      simp [caret, hat]
    · rename_i data
      obtain ⟨hooks, more, plain, rest⟩ := ih (done ++ [chunk]) (write p (.data chunk))
      have same : caret (chunk :: chunks) = caret chunks := by simp [caret, data]
      have grown := (plain_single (x := .data chunk) nofun nofun).append plain
      refine ⟨hooks, [.data chunk] ++ more, grown, ?_⟩
      rw [same]
      rcases rest with ⟨hat, link, closed⟩ | ⟨none, link, fd2⟩
      · refine .inl ⟨hat, ?_, closed⟩
        rw [link, Poll.write]
        simp only [List.append_assoc]
      · refine .inr ⟨none, ?_, fd2⟩
        rw [link, Poll.write, List.append_assoc]

private theorem clientData_lines (p : ProxyState) (gi : List (List UInt8)) :
    (clientData p gi).hookConnects = p.hookConnects ∧
      ∃ more, Plain Sent.giCon Sent.giEnd more ∧
        ((∃ c, p.fd2 = some c ∧ caret c.chunks = true ∧
            (clientData p gi).toLink = p.toLink ++ (more ++ [.giEnd] ++ [.mark]) ∧
            (clientData p gi).fd2 = none) ∨
          ((clientData p gi).toLink = p.toLink ++ more ∧
            ∀ c, (clientData p gi).fd2 = some c → caret c.chunks = false)) := by
  unfold clientData
  cases client : p.fd2 with
  | none =>
    refine ⟨rfl, [.mark], plain_mark, .inr ⟨rfl, ?_⟩⟩
    intro c same
    cases client.symm.trans same
  | some c =>
    obtain ⟨hooks, more, data, rest⟩ := readLoop_lines gi c.ending c.chunks [] p
    simp only
    generalize readLoop gi c.ending c.chunks [] p = r at hooks rest
    obtain ⟨forwarded, q⟩ := r
    simp only at hooks rest
    rcases rest with ⟨hat, link, closed⟩ | ⟨none, link, fd2⟩
    · refine ⟨hooks, more, data, .inl ⟨c, rfl, hat, ?_, closed⟩⟩
      simp only [writeMark, link, List.append_assoc]
    · refine ⟨hooks, more ++ [.mark], data.append plain_mark, .inr ⟨?_, ?_⟩⟩
      · simp only [writeMark, link, List.append_assoc]
      · intro d same
        have kept : q.fd2 = some d := same
        rcases fd2 with closed | open'
        · cases closed.symm.trans kept
        · obtain rfl := Option.some.inj ((open'.trans client).symm.trans kept)
          exact none

/-- What a line of ieclink has written: only GI_ACT has anything, and a GI_CON comes
first. -/
structure Reacted (line : LinkLine) (p q : ProxyState) (more : List Sent) : Prop where
  fd2 : q.fd2 = none ∨ q.fd2 = p.fd2
  link : q.toLink = p.toLink ++ more
  quiet : line ≠ .giAct → more = [] ∧ q.hookConnects = p.hookConnects
  paired : (more = [.giCon] ∧ q.hookConnects = p.hookConnects + 1) ∨
    (Within .giCon .giEnd 0 more ∧ more.count .giEnd = more.count .giCon ∧
      q.hookConnects = p.hookConnects)

private theorem Reacted.grows {line : LinkLine} {more : List Sent} (h : Reacted line p q more) :
    p.hookConnects ≤ q.hookConnects := by
  rcases h.paired with ⟨_, once⟩ | ⟨_, _, same⟩ <;> omega

private theorem within_answered {asdus : List Sent} (plain : Plain Sent.giCon Sent.giEnd asdus) :
    let more := [.giCon] ++ asdus ++ [.giEnd] ++ [.mark]
    Within .giCon .giEnd 0 more ∧ more.count .giEnd = more.count .giCon := by
  have fin : asdus.count .giEnd = 0 := plain.count_closes
  have con : asdus.count .giCon = 0 := plain.count_opens
  have differ : Sent.giCon ≠ .giEnd := nofun
  have opened : Within .giCon .giEnd 0 ([.giCon] ++ asdus) :=
    (within_open differ).append (e := 1) (by simp) plain.within
  have done : Within .giCon .giEnd 0 ([.giCon] ++ asdus ++ [.giEnd]) :=
    opened.append (e := 1) (by simp [fin, con]) within_close
  exact ⟨done.append (e := 0) (by simp [fin, con]) plain_mark.within, by simp [fin, con]⟩

private theorem linkLine_reacted (p : ProxyState) (line : LinkLine) (mark : Nat)
    (gi : List (List UInt8)) : ∃ more, Reacted line p (linkLine p line mark gi) more := by
  have quiet (q : ProxyState) (fd2 : q.fd2 = none ∨ q.fd2 = p.fd2) (link : q.toLink = p.toLink)
      (hooks : q.hookConnects = p.hookConnects) : ∃ more, Reacted line p q more :=
    ⟨[], fd2, by rw [link, List.append_nil], fun _ => ⟨rfl, hooks⟩, .inr ⟨within_nil, rfl, hooks⟩⟩
  cases line with
  | giAct =>
    unfold linkLine giActLine
    simp only
    split
    · exact ⟨[.giCon], .inr rfl, rfl, fun other => absurd rfl other, .inl ⟨rfl, rfl⟩⟩
    · obtain ⟨within, even⟩ := within_answered (plain_asdu gi)
      refine ⟨_, .inr rfl, ?_, fun other => absurd rfl other, .inr ⟨within, even, rfl⟩⟩
      simp only [writeMark, Poll.write, ginterrog, List.append_assoc]
  | plus => exact quiet _ (.inr rfl) rfl rfl
  | minus => exact quiet _ (.inl rfl) rfl rfl
  | confirm =>
    unfold linkLine confirmLine
    simp only
    split
    · exact quiet _ (.inr rfl) rfl rfl
    · exact quiet _ (.inl rfl) rfl rfl
  | endInit => exact quiet _ (.inr rfl) rfl rfl
  | other => exact quiet _ (.inr rfl) rfl rfl

end Stages

section Stage

variable {s : Round} {q : ProxyState} {more : List Sent}

private theorem Bracketed.recent_le (h : Bracketed s) :
    s.recent.length ≤ s.proxy.hookConnects - s.hooks := by
  have within : s.recent ⊆ List.range' s.hooks (s.proxy.hookConnects - s.hooks) := by
    intro k member
    obtain ⟨used, late⟩ := List.mem_filter.mp member
    have early := h.below k used
    simp only [decide_eq_true_eq] at late
    rw [List.mem_range'_1]
    omega
  have distinct : s.recent.Nodup := List.Pairwise.filter _ h.nodup
  have fits := (List.subperm_of_subset distinct within).length_le
  rwa [List.length_range'] at fits

private theorem lines_append (h : Bracketed s) (link : q.toLink = s.proxy.toLink ++ more) :
    q.toLink.drop s.base = s.lines ++ more := by
  rw [link, List.drop_append_of_le_length h.base]
  rfl

private theorem Bracketed.reacts {line : LinkLine} (h : Bracketed s)
    (r : Reacted line s.proxy q more) : Bracketed { s with proxy := q } := by
  have lines : Round.lines { s with proxy := q } = s.lines ++ more := lines_append h r.link
  have even := h.within.all
  have hooks := h.hooks
  have account := h.account
  have grows := r.grows
  refine ⟨?_, ?_, h.nodup, fun k used => Nat.lt_of_lt_of_le (h.below k used) grows,
    Nat.le_trans hooks grows, fun k mine => Nat.lt_of_lt_of_le (h.known k mine) grows, ?_, ?_⟩
  · have base := h.base
    simp only [r.link, List.length_append]
    omega
  · rw [lines]
    rcases r.paired with ⟨rfl, _⟩ | ⟨within, _⟩
    · exact h.within.append (e := 0) even (within_open nofun)
    · exact h.within.append even within
  · intro c same
    rcases r.fd2 with closed | kept
    · cases closed.symm.trans same
    · exact h.owned c (kept.symm.trans same)
  · change _ + (q.hookConnects - s.hooks) + s.pending ≤ _ + s.recent.length
    rw [lines, List.count_append, List.count_append]
    rcases r.paired with ⟨rfl, once⟩ | ⟨_, same, none⟩
    · have con : List.count Sent.giCon [.giCon] = 1 := rfl
      have fin : List.count Sent.giEnd [.giCon] = 0 := rfl
      omega
    · omega

private theorem Bracketed.renews (h : Bracketed s) (r : Reacted .plus s.proxy q more) :
    Bracketed { s with
      proxy := q
      base := s.proxy.toLink.length
      hooks := s.proxy.hookConnects } := by
  obtain ⟨rfl, same⟩ := r.quiet nofun
  have link := r.link
  rw [List.append_nil] at link
  have lines : Round.lines { s with
      proxy := q
      base := s.proxy.toLink.length
      hooks := s.proxy.hookConnects } = [] := by
    rw [Round.lines]
    simp only [link, List.drop_length]
  refine ⟨by simp only [link, Nat.le_refl], ?_, h.nodup, ?_, Nat.le_of_eq same.symm, ?_, ?_, ?_⟩
  · rw [lines]
    exact within_nil
  · simpa only [same] using h.below
  · simpa only [same] using h.known
  · intro c kept
    rcases r.fd2 with closed | before
    · cases closed.symm.trans kept
    · exact h.owned c (before.symm.trans kept)
  · rw [lines]
    have none : Round.pending { s with
        proxy := q
        base := s.proxy.toLink.length
        hooks := s.proxy.hookConnects } = 0 := by
      rw [Round.pending, List.length_eq_zero_iff, List.filter_eq_nil_iff]
      intro k mine
      have early := h.known k (Option.mem_toList.mp mine)
      simp only [decide_eq_true_eq]
      omega
    rw [none, List.count_nil, List.count_nil]
    simp only [same]
    omega

private theorem Bracketed.accepts (h : Bracketed s) {chunks : List (List UInt8)} {ending : Ending}
    {cause : Option Nat} (sends : cause.isSome = caret chunks)
    (new : ∀ k ∈ cause, k < s.proxy.hookConnects ∧ k ∉ s.used) :
    Bracketed { s with
      proxy := acceptClient s.proxy chunks ending
      owner := cause
      used := cause.toList ++ s.used } := by
  have account := h.account
  refine ⟨h.base, h.within, ?_, ?_, h.hooks, fun k mine => (new k mine).1, ?_, ?_⟩
  · cases cause with
    | none => exact h.nodup
    | some k => exact List.nodup_cons.mpr ⟨(new k rfl).2, h.nodup⟩
  · intro k member
    rcases List.mem_append.mp member with own | used
    · exact (new k (Option.mem_toList.mp own)).1
    · exact h.below k used
  · intro c same hat
    simp only [acceptClient] at same
    split at same
    · obtain rfl := Option.some.inj same
      exact sends.trans hat
    · cases same
  · simp only [Round.pending, Round.recent, List.filter_append, List.length_append] at account ⊢
    change s.lines.count .giEnd + (s.proxy.hookConnects - s.hooks) + _ ≤ s.lines.count .giCon + _
    omega

private theorem Bracketed.reads (h : Bracketed s) (gi : List (List UInt8))
    (current : s.proxy.fd2.isSome → ∀ k ∈ s.owner, s.hooks ≤ k) :
    Bracketed { s with proxy := clientData s.proxy gi, owner := none } := by
  obtain ⟨hooks, more, plain, effect⟩ := clientData_lines s.proxy gi
  have bound := h.recent_le
  have even := h.within.all
  have account := h.account
  have fin : more.count .giEnd = 0 := plain.count_closes
  have con : more.count .giCon = 0 := plain.count_opens
  have below : ∀ k ∈ s.used, k < (clientData s.proxy gi).hookConnects := by
    rw [hooks]
    exact h.below
  rcases effect with ⟨c, client, hat, link, closed⟩ | ⟨link, quiet⟩
  · -- The '^' answers a call of this connection, so fewer of its calls are answered yet
    -- than were made, and one GI_CON is still open.
    have one : s.pending = 1 := by
      obtain ⟨k, mine⟩ := Option.isSome_iff_exists.mp (h.owned c client hat)
      have late := current (by rw [client]; rfl) k mine
      rw [Round.pending, mine]
      simp [late]
    have lines : Round.lines { s with proxy := clientData s.proxy gi, owner := none } =
        s.lines ++ (more ++ [.giEnd] ++ [.mark]) := lines_append h link
    have closes : Within .giCon .giEnd 1 (more ++ [.giEnd] ++ [.mark]) :=
      (plain.within.append (e := 1) (by omega) within_close).append (e := 0)
        (by simp [fin, con]) plain_mark.within
    refine ⟨?_, ?_, h.nodup, below, by rw [hooks]; exact h.hooks, nofun, ?_, ?_⟩
    · have base := h.base
      simp only [link, List.length_append]
      omega
    · rw [lines]
      exact h.within.append (by omega) closes
    · intro d same
      cases closed.symm.trans same
    · rw [lines]
      change _ + ((clientData s.proxy gi).hookConnects - s.hooks) + 0 ≤ _ + s.recent.length
      rw [hooks]
      simp only [List.count_append, fin, con, List.count_singleton_self]
      have con' : List.count Sent.giCon [.giEnd] = 0 := rfl
      have fin' : List.count Sent.giEnd [.mark] = 0 := rfl
      omega
  · have lines : Round.lines { s with proxy := clientData s.proxy gi, owner := none } =
        s.lines ++ more := lines_append h link
    refine ⟨?_, ?_, h.nodup, below, by rw [hooks]; exact h.hooks, nofun, ?_, ?_⟩
    · have base := h.base
      simp only [link, List.length_append]
      omega
    · rw [lines]
      exact h.within.append (e := 0) (by omega) plain.within
    · intro d same hat
      cases (quiet d same).symm.trans hat
    · rw [lines]
      change _ + ((clientData s.proxy gi).hookConnects - s.hooks) + 0 ≤ _ + s.recent.length
      rw [hooks, List.count_append, List.count_append]
      omega

end Stage

private theorem Bracketed.hears {s : Round} (h : Bracketed s) (e : Arrival) :
    s.proxy.hookConnects ≤ (fd0Stage s.proxy e.ready).hookConnects ∧
      Bracketed { s with
        proxy := fd0Stage s.proxy e.ready
        base := if e.line = some .plus then s.proxy.toLink.length else s.base
        hooks := if e.line = some .plus then s.proxy.hookConnects else s.hooks } := by
  unfold fd0Stage Arrival.line
  cases e.ready.line with
  | none => exact ⟨Nat.le_refl _, h⟩
  | some l =>
    obtain ⟨buf, mark⟩ := l
    obtain ⟨more, reacted⟩ := linkLine_reacted s.proxy (classify buf) mark e.ready.gi
    simp only [Option.map_some, Option.some.injEq]
    refine ⟨reacted.grows, ?_⟩
    by_cases plus : classify buf = .plus
    · rw [plus] at reacted ⊢
      exact h.renews reacted
    · simp only [if_neg plus]
      exact h.reacts reacted

private theorem bracketed_step (s : Round) (e : Arrival) (t : Round) (h : Bracketed s)
    (current : Current s e) (happens : roundStep s e = some t) : Bracketed t := by
  unfold roundStep at happens
  split at happens
  · rename_i allowed
    obtain ⟨possible, caused⟩ := allowed
    simp only at happens
    split at happens
    · rename_i skips
      obtain rfl := Option.some.inj happens
      rw [pollBody_endInit skips]
      exact h
    · rename_i goes
      obtain rfl := Option.some.inj happens
      obtain ⟨grows, heard⟩ := h.hears e
      rw [pollBody_stages possible goes]
      unfold Caused at caused
      cases come : e.ready.incoming with
      | some c =>
        obtain ⟨chunks, ending⟩ := c
        rw [come] at caused
        refine heard.accepts caused.1 ?_
        intro k mine
        obtain ⟨early, new⟩ := caused.2 k mine
        exact ⟨Nat.lt_of_lt_of_le early grows, new⟩
      | none =>
        rw [come] at caused
        simp only at caused
        rw [caused]
        simp only [fd2Stage]
        cases read : e.ready.readable with
        | false => exact heard
        | true => exact heard.reads e.ready.gi (current goes read)
  · cases happens

private theorem bracketed_fresh : Bracketed Round.fresh :=
  ⟨Nat.le_refl 0, within_nil, List.nodup_nil, nofun, Nat.le_refl 0, nofun, nofun, Nat.le_refl 0⟩

/-- As long as every '^' that is read answers a call of `hook_connect` of the same
connection, iecproxy has at no moment written more GI_END than GI_CON lines in it. -/
theorem current_bracketed {s : Round} {es : List Arrival}
    (current : Guarded roundStep Current Round.fresh es)
    (reached : run roundStep Round.fresh es = some s) {written : List Sent}
    (pre : written <+: s.lines) : written.count .giEnd ≤ written.count .giCon :=
  (guarded_invariant bracketed_step bracketed_fresh current reached).within written pre

def plusReady : Ready := { line := some ([43, 10], 0) }
def minusReady : Ready := { line := some ([45, 10], 0) }
def actReady : Ready := { line := some (giAct ++ [10], 0) }
def hatClient : Ready := { incoming := some ([[94, 10]], .eof) }
def dataReady : Ready := { readable := true }

def oneRound : List Arrival := [⟨plusReady, none⟩, ⟨actReady, none⟩, ⟨hatClient, some 0⟩, ⟨dataReady, none⟩]

theorem current_bracketed_oneRound : ∃ s, run roundStep Round.fresh oneRound = some s ∧
    s.lines = [.giCon, .giEnd, .mark] ∧ s.lines.count .giEnd ≤ s.lines.count .giCon := by
  refine ⟨_, rfl, rfl, ?_⟩
  exact @current_bracketed _ oneRound (by decide) rfl _ (List.prefix_refl _)

/-- The connection is lost and made again while the '^' of the first one is on its way. -/
def lateHat : List Arrival :=
  [⟨plusReady, none⟩, ⟨actReady, none⟩, ⟨minusReady, none⟩, ⟨plusReady, none⟩, ⟨actReady, none⟩,
    ⟨hatClient, some 0⟩, ⟨dataReady, none⟩, ⟨hatClient, some 1⟩, ⟨dataReady, none⟩]

theorem lateHat_unbracketed : ∃ s, run roundStep Round.fresh lateHat = some s ∧
    s.lines = [.giCon, .giEnd, .mark, .giEnd, .mark] ∧
    ∃ written, written <+: s.lines ∧ written.count .giCon < written.count .giEnd :=
  ⟨_, rfl, rfl, _, List.prefix_refl _, by decide⟩

end IecUtils.Proxy.Interrogation
