import Mathlib.Algebra.Order.Group.Multiset
import Mathlib.Data.List.Perm.Basic
import Mathlib.Tactic.Abel
import LateBinding.Proofs.Machine.SiteHistories
import LateBinding.Session.Calls

namespace LateBinding

/-- The call goes through this call site. -/
def Request.isVia (id : Nat) (r : Request) : Bool := r.route = .site id

/-- The calls that are on their way to or at their safepoint. -/
def Control.waiting : Control → List Request
  | .arrive r | .poll r => r.toList
  | .run .. | .result _ => []

/-- The call that waits at its safepoint for an action to end. -/
def Waiting.waiting : Waiting → List Request
  | .safepoint r => r.toList
  | .script .. => []

namespace Machine

/-- The calls that have come to their safepoints and are not past them, the innermost first. -/
def waiting (m : Machine) : List Request := m.control.waiting ++ m.stack.flatMap Waiting.waiting

/-- The call with which a step comes to a safepoint. -/
def making? (m : Machine) : Option Request :=
  match m.control with
  | .run (.call c b _) block => some ⟨c.route, c.receiver, c.name, c.args, b.block? block⟩
  | _ => none

/-- The call that a step gives up, because an action at its safepoint has failed. -/
def stopping? (m : Machine) : Option Request :=
  match m.control, m.stack with
  | .result (.error _), .safepoint r :: _ => r
  | _, _ => none

variable {m m' : Machine}

theorem waiting_mk (w : World) (t : ThreadId) (c : Control) (stack : List Waiting) :
    waiting ⟨w, t, c, stack⟩ = c.waiting ++ stack.flatMap Waiting.waiting := rfl

theorem waiting_ofDecision (d : Decision) : (Control.ofDecision d).waiting = [] := by
  cases d with
  | answer d => rfl
  | fail f => rfl
  | invoke method receiver args block =>
    simp only [Control.ofDecision]
    split <;> rfl

theorem waiting_ofKept (kept : Option (Method Target)) (receiver : Value) (args : List Value)
    (block : Option Block) : (Control.ofKept kept receiver args block).waiting = [] := by
  cases kept with
  | none => rfl
  | some m => exact waiting_ofDecision (.invoke m receiver args block)

theorem waiting_enter (m : Machine) (w : World) (r : Option Request) :
    (m.enter w r).waiting = m.stack.flatMap Waiting.waiting := by
  cases r with
  | none => rfl
  | some r => simp only [enter, waiting, waiting_ofDecision, List.nil_append]

/-- A call that comes or waits is let past, is given up, or goes on waiting. -/
theorem waiting_of_step (hstep : m.step = .next m') :
    m.making?.toList ++ m.waiting =
      (m.deciding?.toList.map Prod.snd) ++ (m.stopping?.toList ++ m'.waiting) := by
  obtain ⟨world, thread, control, stack⟩ := m
  -- A call comes and gets past in one step where there is nothing to do. Otherwise it waits at a poll, below the
  -- actions that run there.
  cases control with
  | run s block =>
    obtain rfl := Progress.next.inj hstep
    cases s with
    | invoke kept receiver args b k =>
      simp only [runScript, waiting_mk, waiting_ofKept]
      rfl
    | «yield» args k => cases block <;> rfl
    | _ => rfl
  | arrive r =>
    obtain rfl := Progress.next.inj hstep
    cases harrive : world.safepoints.arrive with
    | mk requested safepoints =>
      cases requested <;> cases r <;> simp [arrive, making?, deciding?, stopping?, harrive,
        waiting_enter, waiting_mk, Control.waiting]
  | poll r =>
    simp only [step, atSafepoint] at hstep
    cases hnext : world.safepoints.next thread with
    | wait =>
      rw [hnext] at hstep
      cases hstep
    | run action safepoints =>
      rw [hnext] at hstep
      obtain rfl := Progress.next.inj hstep
      cases r <;> simp [making?, deciding?, stopping?, hnext, waiting_mk, Control.waiting,
        Waiting.waiting]
    | pass safepoints =>
      rw [hnext] at hstep
      obtain rfl := Progress.next.inj hstep
      cases r <;> simp [making?, deciding?, stopping?, hnext, waiting_enter, waiting_mk,
        Control.waiting]
  | result outcome =>
    simp only [step] at hstep
    split at hstep
    · cases hstep
    · obtain rfl := Progress.next.inj hstep
      rename_i top rest
      cases top with
      | script k block => cases outcome <;> rfl
      | safepoint r => cases outcome <;> rfl

/-- A step decides one call and gives up none, or it makes at most one move, which decides none. -/
theorem step_cases (hstep : m.step = .next m') :
    m.deciding? = none ∧
        (m'.world = m.world ∨ ∃ move, m'.world = m.world.move move ∧ ∀ r, move ≠ .decide r) ∨
      ∃ w r, m.deciding? = some (w, r) ∧ m.stopping? = none ∧ w.sites = m.world.sites ∧
        m'.world = (w.decide r).2 := by
  rw [world_of_step hstep]
  obtain ⟨world, thread, control, stack⟩ := m
  -- Calls are decided behind a safepoint only, in a world whose call sites are as they were before it.
  cases control with
  | run s block =>
    refine .inl ⟨rfl, ?_⟩
    cases s with
    | edit e k => exact .inr ⟨.edit e, rfl, by simp⟩
    | submit action k => exact .inr ⟨.safepoints _, rfl, by simp⟩
    | ask q k => exact .inr ⟨.ask q, rfl, by simp⟩
    | _ => exact .inl rfl
  | arrive r =>
    cases harrive : world.safepoints.arrive with
    | mk requested safepoints =>
      cases requested with
      | true =>
        refine .inl ⟨by cases r <;> simp [deciding?, harrive], .inr ⟨.safepoints safepoints, ?_, by simp⟩⟩
        simp [moves, harrive]
      | false =>
        cases r with
        | none => exact .inl ⟨rfl, .inr ⟨.safepoints safepoints, by simp [moves, harrive], by simp⟩⟩
        | some r =>
          exact .inr ⟨{ world with safepoints }, r, by simp [deciding?, harrive], rfl, rfl,
            by simp [moves, harrive, World.move]⟩
  | poll r =>
    cases hnext : world.safepoints.next thread with
    | wait =>
      exact .inl ⟨by cases r <;> simp [deciding?, hnext], .inl (by simp [moves, hnext])⟩
    | run action safepoints =>
      exact .inl ⟨by cases r <;> simp [deciding?, hnext],
        .inr ⟨.safepoints safepoints, by simp [moves, hnext], by simp⟩⟩
    | pass safepoints =>
      cases r with
      | none => exact .inl ⟨rfl, .inr ⟨.safepoints safepoints, by simp [moves, hnext], by simp⟩⟩
      | some r =>
        exact .inr ⟨{ world with safepoints }, r, by simp [deciding?, hnext], rfl, rfl,
          by simp [moves, hnext, World.move]⟩
  | result outcome => exact .inl ⟨rfl, .inl rfl⟩

end Machine

/-- Machines at work in one world, with what has become of the calls that they have made. -/
structure CallLedger where
  world : World
  /-- The machines. What they take for the world is out of date. -/
  machines : List Machine
  /-- The calls that have come to their safepoints, newest first. -/
  come : List Request
  /-- The calls that got past their safepoints, newest first, each with the world in which it did. -/
  passed : List (World × Request)
  /-- The calls that were given up at their safepoints, newest first. -/
  stopped : List Request

/-- What can happen next. -/
inductive Act where
  /-- A machine sets to work: a call, a poll or a script is begun, or something that was begun before is
  taken up. -/
  | begin (m : Machine)
  /-- It is the turn of a machine to take a step. -/
  | step (i : Nat)
  /-- Something happens to the world that is not a call. -/
  | move (m : Move)

namespace CallLedger

/-- The ledger of a world in which no machine is at work. -/
def opened (w : World) : CallLedger :=
  { world := w, machines := [], come := [], passed := [], stopped := [] }

/-- A machine, with the world as the others have left it. -/
def machine? (l : CallLedger) (i : Nat) : Option Machine :=
  l.machines[i]?.map fun m => { m with world := l.world }

theorem world_of_machine? {l : CallLedger} {i : Nat} {m : Machine} (hm : l.machine? i = some m) :
    m.world = l.world := by
  obtain ⟨m₀, -, rfl⟩ := Option.map_eq_some_iff.mp hm
  rfl

/-- Enters a step that leads from one machine to another. -/
def record (l : CallLedger) (i : Nat) (m m' : Machine) : CallLedger :=
  { world := m'.world
    machines := l.machines.set i m'
    come := m.making?.toList ++ l.come
    passed := m.deciding?.toList ++ l.passed
    stopped := m.stopping?.toList ++ l.stopped }

/-- The ledger behind an act. Nothing happens if a machine is to take a step that has none to take, and
no call is decided but by a machine. -/
def act (l : CallLedger) : Act → CallLedger
  | .begin m => { l with machines := m :: l.machines, come := m.waiting ++ l.come }
  | .step i =>
    match l.machine? i with
    | none => l
    | some m =>
      match m.step with
      | .next m' => l.record i m m'
      | _ => l
  | .move (.decide _) => l
  | .move m => { l with world := l.world.move m }

/-- The ledger behind some acts. -/
def after (l : CallLedger) (acts : List Act) : CallLedger := acts.foldl act l

/-- The calls that have come to their safepoints and are not past them. -/
def waiting (l : CallLedger) : List Request := l.machines.flatMap Machine.waiting

/-- Every call that has come is past its safepoint, was given up there, or waits. -/
def Balanced (l : CallLedger) : Prop :=
  l.come.Perm (l.passed.map Prod.snd ++ (l.stopped ++ l.waiting))

variable {l l' : CallLedger} {m m' : Machine} {i id : Nat} {s s' : CallSite Target} {w : World}
  {r : Request}

/-- What is kept by every act is kept by all acts. -/
theorem after_induction {P : CallLedger → Prop} (hl : P l) (hact : ∀ l a, P l → P (l.act a))
    (acts : List Act) : P (l.after acts) := by
  induction acts generalizing l with
  | nil => exact hl
  | cons a acts ih => exact ih (hact l a hl)

/-- An act is a beginning, a step of a machine, a move that is no call, or nothing. -/
theorem act_cases {P : CallLedger → Prop} (hsame : P l)
    (hbegin : ∀ m, P { l with machines := m :: l.machines, come := m.waiting ++ l.come })
    (hstep : ∀ i m m', l.machine? i = some m → m.step = .next m' → P (l.record i m m'))
    (hmove : ∀ m, (∀ r, m ≠ .decide r) → P { l with world := l.world.move m }) (a : Act) :
    P (l.act a) := by
  cases a with
  | begin m => exact hbegin m
  | step i =>
    simp only [act]
    split
    · exact hsame
    · rename_i m hm
      split
      · rename_i m' hnext
        exact hstep i m m' hm hnext
      · exact hsame
  | move m =>
    cases m with
    | decide r => exact hsame
    | _ => exact hmove _ (by simp)

/-- The calls that wait in a machine, and those that wait in the others. -/
theorem waiting_perm (hm : l.machine? i = some m) (m' : Machine) :
    l.waiting.Perm (m.waiting ++ (l.machines.eraseIdx i).flatMap Machine.waiting) ∧
      ((l.machines.set i m').flatMap Machine.waiting).Perm
        (m'.waiting ++ (l.machines.eraseIdx i).flatMap Machine.waiting) := by
  obtain ⟨m₀, hm₀, rfl⟩ := Option.map_eq_some_iff.mp hm
  obtain ⟨hlt, hget⟩ := List.getElem?_eq_some_iff.mp hm₀
  constructor
  · have hperm := (List.getElem_cons_eraseIdx_perm hlt).symm.flatMap_right Machine.waiting
    rwa [hget, List.flatMap_cons] at hperm
  · have hperm := (List.set_perm_cons_eraseIdx hlt m').flatMap_right Machine.waiting
    rwa [List.flatMap_cons] at hperm

theorem Balanced.record (hl : l.Balanced) (hm : l.machine? i = some m) (hstep : m.step = .next m') :
    (l.record i m m').Balanced := by
  obtain ⟨hbefore, hbehind⟩ := waiting_perm hm m'
  have hflow := congrArg Multiset.ofList (Machine.waiting_of_step hstep)
  rw [Balanced, ← Multiset.coe_eq_coe] at hl
  rw [← Multiset.coe_eq_coe] at hbefore hbehind
  rw [Balanced, waiting, ← Multiset.coe_eq_coe]
  simp only [CallLedger.record, List.map_append, ← Multiset.coe_add] at hl hbefore hbehind hflow ⊢
  rw [hbehind, hl, hbefore]
  generalize (l.machines.eraseIdx i).flatMap Machine.waiting = others
  calc (m.making?.toList : Multiset Request) +
        (l.passed.map Prod.snd + (l.stopped + (m.waiting + others)))
      = (m.making?.toList + m.waiting) + (l.passed.map Prod.snd + (l.stopped + others)) := by abel
    _ = (m.deciding?.toList.map Prod.snd + (m.stopping?.toList + m'.waiting)) +
        (l.passed.map Prod.snd + (l.stopped + others)) := by rw [hflow]
    _ = _ := by abel

theorem Balanced.begin (hl : l.Balanced) (m : Machine) :
    Balanced { l with machines := m :: l.machines, come := m.waiting ++ l.come } := by
  rw [Balanced, ← Multiset.coe_eq_coe] at hl ⊢
  simp only [waiting, List.flatMap_cons, ← Multiset.coe_add] at hl ⊢
  rw [hl]
  abel

/-- No call is lost, and none is entered twice. -/
theorem balanced_after (w : World) (acts : List Act) : ((opened w).after acts).Balanced := by
  have hopened : (opened w).Balanced := List.Perm.refl []
  refine after_induction hopened (fun l a hl => ?_) acts
  exact act_cases hl hl.begin (fun _ _ _ hm hstep => hl.record hm hstep) (fun _ _ => hl) a

/-- The calls through a call site that got past their safepoints, newest first. -/
def through (l : CallLedger) (id : Nat) : List (World × Request) := l.passed.filter fun p => p.2.isVia id

/-- The calls of foreign objects among them. -/
def foreigns (l : CallLedger) (id : Nat) : Nat := (l.through id).countP fun p => p.2.receiver.isForeign

/-- The calls among them that failed because a class does not exist. -/
def rejections (l : CallLedger) (id : Nat) : Nat :=
  (l.through id).countP fun p => (p.1.decide p.2).1.isRejection

/-- The counters of a call site agree with the ledger. -/
structure Agrees (l : CallLedger) (id : Nat) (s : CallSite Target) : Prop where
  /-- Every access is counted in one way. -/
  accesses_eq_add :
    s.accesses = s.hits + s.misses + s.bypasses + l.foreigns id + l.rejections id
  /-- The calls that are past their safepoints are the accesses. -/
  accesses_eq_length : s.accesses = (l.through id).length
  hits_le : s.hits ≤ s.accesses
  /-- The calls that have come are past their safepoints, or were given up there, or wait. -/
  come_perm : (l.come.filter (·.isVia id)).Perm ((l.through id).map Prod.snd ++
    (l.stopped.filter (·.isVia id) ++ l.waiting.filter (·.isVia id)))

/-- What an act does to a call site: nothing, or it lets one call through the site past its safepoint,
gives up none, and the site counts this call in one way. -/
inductive Accounts (l l' : CallLedger) (id : Nat) (s s' : CallSite Target) : Prop where
  | none (hthrough : l'.through id = l.through id) (hsame : s' = s)
  | one {p : World × Request} {t : Tally} (hthrough : l'.through id = p :: l.through id)
    (hstopped : l'.stopped = l.stopped) (hcounts : s'.counts = s.counts.add t)
    (hforeign : t = .foreign ↔ p.2.receiver.isForeign = true)
    (hrejection : t = .unknown ↔ (p.1.decide p.2).1.isRejection = true)
    (hbypass : t = .bypass → s.isMegamorphic = true)

/-- The call site is there and has counted every call through it as what it is. -/
structure Tallied (l : CallLedger) (id : Nat) (s : CallSite Target) : Prop where
  numbered : l.world.Numbered
  site : l.world.sites[id]? = some s
  tallies : ∃ ts, s.counts = .ofTallies ts ∧ List.Forall₂ (fun p t =>
    (t = .foreign ↔ p.2.receiver.isForeign = true) ∧
      (t = .unknown ↔ (p.1.decide p.2).1.isRejection = true)) (l.through id) ts

theorem numbered_act (hl : l.world.Numbered) (a : Act) : (l.act a).world.Numbered := by
  refine act_cases (P := fun l' => l'.world.Numbered) hl (fun m => hl) (fun i m m' hm hstep => ?_)
    (fun m hm => hl.move m) a
  have hworld : (l.record i m m').world = m.world.after m.moves := Machine.world_of_step hstep
  rw [hworld, world_of_machine? hm]
  exact hl.after _

/-- A step of a machine leaves the site alone, or the site counts the call that the step decides. -/
theorem exists_accounts_record (hl : l.world.Numbered) (hs : l.world.sites[id]? = some s)
    (hm : l.machine? i = some m) (hstep : m.step = .next m') :
    ∃ s', (l.record i m m').world.sites[id]? = some s' ∧ s'.mode = s.mode ∧
      l.Accounts (l.record i m m') id s s' := by
  have hthrough : (l.record i m m').through id =
      m.deciding?.toList.filter (fun p => p.2.isVia id) ++ l.through id := List.filter_append ..
  -- A step that decides no call cannot change a site.
  rcases Machine.step_cases hstep with ⟨hnone, hworld⟩ | ⟨w, r, hsome, hstopping, hsites, hworld⟩
  · refine ⟨s, ?_, rfl, .none (by simpa [hnone] using hthrough) rfl⟩
    rw [record]
    rcases hworld with hworld | ⟨move, hworld, hmove⟩
    · rw [hworld, world_of_machine? hm, hs]
    · rw [hworld, world_of_machine? hm]
      exact World.site_move_of_ne_decide hs hmove
  · have hw : w.Numbered := hl.of_sites_eq (by rw [hsites, world_of_machine? hm])
    have hs₀ : w.sites[id]? = some s := by rw [hsites, world_of_machine? hm, hs]
    have hbehind : (l.record i m m').world = (w.decide r).2 := hworld
    rw [hbehind]
    by_cases hroute : r.route = .site id
    · obtain ⟨s', hreplaces, hcounted⟩ := hw.counted_decide hs₀ hroute
      refine ⟨s', hreplaces.self, hcounted.mode, .one (p := (w, r)) ?_ ?_ hcounted.counts
        World.tallyBy_eq_foreign_iff ?_ World.isMegamorphic_of_tallyBy⟩
      · rw [hthrough, hsome]
        simp [Request.isVia, hroute]
      · rw [record, hstopping]
        rfl
      · rw [World.isRejection_decide_iff, World.tally?_of_site hroute hs₀, Option.some.injEq]
    · refine ⟨s, (hw.site_decide hroute).trans hs₀, rfl, .none ?_ rfl⟩
      rw [hthrough, hsome]
      simp [Request.isVia, hroute]

/-- Every act accounts for what it does to the site. -/
theorem exists_accounts (hl : l.world.Numbered) (hs : l.world.sites[id]? = some s) (a : Act) :
    ∃ s', (l.act a).world.sites[id]? = some s' ∧ s'.mode = s.mode ∧ l.Accounts (l.act a) id s s' :=
  act_cases (P := fun l' => ∃ s', l'.world.sites[id]? = some s' ∧ s'.mode = s.mode ∧
      l.Accounts l' id s s')
    ⟨s, hs, rfl, .none rfl rfl⟩ (fun _ => ⟨s, hs, rfl, .none rfl rfl⟩)
    (fun _ _ _ hm hstep => exists_accounts_record hl hs hm hstep)
    (fun _ hm => ⟨s, World.site_move_of_ne_decide hs hm, rfl, .none rfl rfl⟩) a

/-- A new call site has counted nothing. -/
theorem tallied_opened (hw : w.Numbered) (mode : Mode) (limit : Nat) :
    (opened (w.newSite mode limit).2).Tallied (w.newSite mode limit).1
      (.new w.sites.size mode limit) where
  numbered := hw.move (.newSite mode limit)
  site := by simp [opened, World.newSite]
  tallies := ⟨[], rfl, .nil⟩

theorem Tallied.act (hs : l.Tallied id s) (a : Act) :
    ∃ s', s'.mode = s.mode ∧ l.Accounts (l.act a) id s s' ∧ (l.act a).Tallied id s' := by
  obtain ⟨s', hs', hmode, haccounts⟩ := exists_accounts hs.numbered hs.site a
  obtain ⟨ts, hcounts, htallies⟩ := hs.tallies
  refine ⟨s', hmode, haccounts, numbered_act hs.numbered a, hs', ?_⟩
  cases haccounts with
  | none hthrough hsame =>
    subst hsame
    exact ⟨ts, hcounts, hthrough ▸ htallies⟩
  | @one p t hthrough _ hadd hforeign hrejection _ =>
    refine ⟨t :: ts, ?_, ?_⟩
    · rw [hadd, hcounts, Counts.ofTallies_cons]
    · rw [hthrough]
      exact .cons ⟨hforeign, hrejection⟩ htallies

theorem count_of_forall₂ {α : Type} {xs : List α} {ts : List Tally} {t : Tally} {p : α → Bool}
    (htallies : List.Forall₂ (fun x u => u = t ↔ p x = true) xs ts) : ts.count t = xs.countP p := by
  induction htallies with
  | nil => rfl
  | cons hhead _ ih => simp only [List.count_cons, List.countP_cons, ih, beq_iff_eq, hhead]

theorem Tallied.agrees (hs : l.Tallied id s) (hl : l.Balanced) : l.Agrees id s := by
  obtain ⟨ts, hcounts, htallies⟩ := hs.tallies
  have hforeigns := count_of_forall₂ (htallies.imp fun p t h => h.1)
  have hrejections := count_of_forall₂ (htallies.imp fun p t h => h.2)
  have hsum := Counts.accesses_ofTallies ts
  have hlength : s.accesses = (l.through id).length := by
    rw [htallies.length_eq]
    exact congrArg Counts.accesses hcounts
  rw [hforeigns, hrejections, ← hcounts] at hsum
  refine ⟨hsum, hlength, ?_, ?_⟩
  · have hadd : s.accesses = s.hits + s.misses + s.bypasses + l.foreigns id + l.rejections id := hsum
    omega
  · have hfiltered := List.Perm.filter (Request.isVia id) hl
    rw [List.filter_append, List.filter_append, List.filter_map] at hfiltered
    exact hfiltered

/-- A counter that has moved has moved ahead, and a site that has counted nothing is as it was. -/
theorem Accounts.le (haccounts : l.Accounts l' id s s') :
    s.counts.Le s'.counts ∧ (s'.accesses = s.accesses → s' = s) := by
  cases haccounts with
  | none _ hsame => exact ⟨hsame ▸ .refl _, fun _ => hsame⟩
  | @one _ t _ _ hcounts =>
    refine ⟨hcounts ▸ Counts.le_add .., fun hsame => ?_⟩
    have hmoved : s'.accesses = s.accesses + 1 := by
      rw [show s'.accesses = s'.counts.accesses from rfl, hcounts]
      cases t <;> rfl
    omega

theorem Accounts.isMegamorphic (haccounts : l.Accounts l' id s s')
    (hmoved : s'.bypasses ≠ s.bypasses) : s.isMegamorphic = true := by
  cases haccounts with
  | none _ hsame => exact absurd (congrArg CallSite.bypasses hsame) hmoved
  | @one _ t _ _ hcounts _ _ hbypass =>
    refine hbypass ?_
    have hbypasses := congrArg Counts.bypasses hcounts
    cases t with
    | bypass => rfl
    | _ => exact absurd hbypasses hmoved

/-- The counters only move ahead, and a call site that has counted no further access is as it was. -/
theorem Tallied.after (hs : l.Tallied id s) (acts : List Act) :
    ∃ s', (l.after acts).Tallied id s' ∧ s'.mode = s.mode ∧ s.counts.Le s'.counts ∧
      (s'.accesses = s.accesses → s' = s) := by
  induction acts generalizing l s with
  | nil => exact ⟨s, hs, rfl, .refl _, fun _ => rfl⟩
  | cons a acts ih =>
    obtain ⟨s₁, hmode₁, haccounts, hs₁⟩ := hs.act a
    obtain ⟨hle₁, hsame₁⟩ := haccounts.le
    obtain ⟨s', hs', hmode, hle, hsame⟩ := ih hs₁
    refine ⟨s', hs', hmode.trans hmode₁, hle₁.trans hle, fun haccesses => ?_⟩
    have hfirst : s.accesses ≤ s₁.accesses := hle₁.accesses
    have hthen : s₁.accesses ≤ s'.accesses := hle.accesses
    rw [hsame (by omega), hsame₁ (by omega)]

/-- A question is refused by a call site that is there for calls, and nothing else happens. -/
theorem runCall_respondVia_refused {session : Session} {label : String} (c : LabelledCall)
    (hlabel : session.notebook.site label = .ok id) (hs : session.world.sites[id]? = some s)
    (hmode : s.mode.isRespondTo = false) :
    session.runCall (.respondVia label c) = .ok (.error (.notARespondSite id), session) := by
  simp only [Session.runCall, hlabel, bind, Except.bind, hs, hmode, Bool.false_eq_true, if_false]
  rfl

/-- The counters of a call site are exact at every moment, whatever has happened since it was made.

Its accesses are the calls that got past their safepoints, and they are made up of hits, misses,
bypasses, calls of foreign objects, and calls that failed because a class does not exist. Every act that
lets a call through the site past its safepoint adds this call to one of the five, and no other act does
anything to the site, nor does a question that is refused. The counters only move ahead. A call is
counted as a bypass only if the site has seen too many when the call gets past its safepoint, and indeed
when the call begins, unless others have got past theirs in between. -/
theorem site_accounts_exact (options : Options) (ms : List Move) (mode : Mode) (limit : Nat)
    (acts : List Act) :
    let made := ((World.start options).after ms).newSite mode limit
    let l := (opened made.2).after acts
    ∃ s, l.world.sites[made.1]? = some s ∧ l.Agrees made.1 s ∧
      (∀ a, ∃ s', (l.act a).world.sites[made.1]? = some s' ∧ l.Accounts (l.act a) made.1 s s') ∧
      (∀ more, ∃ s', (l.after more).world.sites[made.1]? = some s' ∧ s.counts.Le s'.counts ∧
        (s'.accesses = s.accesses → s' = s ∧ ∀ a s'',
          ((l.after more).act a).world.sites[made.1]? = some s'' → s''.bypasses ≠ s.bypasses →
            s.isMegamorphic = true)) ∧
      (mode.isRespondTo = false → ∀ session : Session, session.world = l.world → ∀ label c,
        session.notebook.site label = .ok made.1 →
          session.runCall (.respondVia label c) = .ok (.error (.notARespondSite made.1), session)) := by
  intro made l
  have hw : ((World.start options).after ms).Numbered := (World.numbered_start options).after ms
  obtain ⟨s, hs, hmode, -, -⟩ := (tallied_opened hw mode limit).after acts
  refine ⟨s, hs.site, hs.agrees (balanced_after made.2 acts), fun a => ?_, fun more => ?_, ?_⟩
  · obtain ⟨s', -, haccounts, hs'⟩ := hs.act a
    exact ⟨s', hs'.site, haccounts⟩
  · obtain ⟨s', hs', -, hle, hsame⟩ := hs.after more
    refine ⟨s', hs'.site, hle, fun haccesses => ⟨hsame haccesses, fun a s'' hs'' hmoved => ?_⟩⟩
    obtain rfl := hsame haccesses
    obtain ⟨s₁, -, haccounts, hs₁⟩ := hs'.act a
    have hnext := hs₁.site
    rw [hs'', Option.some.injEq] at hnext
    exact haccounts.isMegamorphic (hnext ▸ hmoved)
  · intro hquestions session hsession label c hlabel
    refine runCall_respondVia_refused c hlabel (s := s) (by rw [hsession]; exact hs.site) ?_
    rw [hmode]
    exact hquestions

/-- A call begins when its site has seen nothing yet. At its safepoint it runs an action, whose call is the
first one through the site, and one too many for it. So the call that began before that is a bypass. -/
theorem bypass_of_call_begun_before :
    let receiver : Value := .object ⟨0, ⟨1⟩⟩
    let defined := (World.start {}).after
      [.edit (.define ⟨1⟩ ⟨"outer"⟩ .pub (.constant .nil) {}),
        .edit (.define ⟨1⟩ ⟨"inner"⟩ .pub (.constant .nil) {})]
    let made := defined.newSite .publicCall 0
    let call : Request := ⟨.site made.1, receiver, ⟨"outer"⟩, [], none⟩
    let action : Script := .sendVia made.1 receiver ⟨"inner"⟩ [] .answer
    let begun := (opened made.2).after
      [.move (.safepoints (Safepoints.idle.submit action)), .begin (.ofRequest made.2 ⟨0⟩ call)]
    let before := begun.after (List.replicate 8 (.step 0))
    let behind := before.act (.step 0)
    begun.waiting.map Request.name = [⟨"outer"⟩] ∧
      begun.world.sites[made.1]?.map CallSite.isMegamorphic = some false ∧
      before.passed.map (fun p => p.2.name) = [⟨"inner"⟩] ∧
      before.world.sites[made.1]?.map CallSite.bypasses = some 0 ∧
      behind.passed.map (fun p => p.2.name) = [⟨"outer"⟩, ⟨"inner"⟩] ∧
      behind.world.sites[made.1]?.map CallSite.bypasses = some 1 := by
  intro receiver defined made call action begun before behind
  exact ⟨by decide +kernel, by decide +kernel, by decide +kernel, by decide +kernel, by decide +kernel,
    by decide +kernel⟩

/-- A call of a foreign object gets past its safepoint, and one behind it is stopped by an interrupt. -/
example :
    let made := (World.void {}).newSite .publicCall 8
    let m := Machine.ofRequest made.2 ⟨0⟩ ⟨.site made.1, .foreign ⟨0, "Point"⟩, ⟨"x"⟩, [], none⟩
    let interrupt : Safepoints Script := Safepoints.idle.submit (.fail (.interrupted "stop"))
    let l := (opened made.2).after [.begin m, .step 0, .move (.safepoints interrupt), .begin m,
      .step 0, .step 0, .step 0, .step 0]
    l.world.sites[made.1]?.map CallSite.accesses = some 1 ∧ l.foreigns made.1 = 1 ∧
      l.come.length = 2 ∧ l.stopped.length = 1 ∧ l.waiting = [] :=
  ⟨rfl, rfl, rfl, rfl, rfl⟩

end CallLedger

end LateBinding
