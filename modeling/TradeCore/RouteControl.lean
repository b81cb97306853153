import Mathlib
import TradeCore.Lib.Interleaving

/-!
# The Route Control Plane

Which Raft group owns a category, and the migrations that move a category to another group
(`cluster.rs`). The pins, the migrations and the version sit behind two locks and an atomic, and
any number of callers work on them at once. A call is cut into steps at its lock acquisitions
and atomic operations; a step also does what the caller does with its own data, or with data it
has locked, up to the next one. The guard of the migrations is held through the rest of `begin`
and `activate`, so that every other access to the migrations waits there.

* `step` — one step of one caller.
* `Control.history` — what callers were told about a category, newest first.
* `Undisturbed` — no `activate` moves a category while a `begin` for it has read its group and
  waits for the migrations, and fewer than `2 ^ 64` versions have been given out.
* `fenced_migration` — in every interleaving whose steps are undisturbed: a migration leads from
  the group of its category to another one; a category changes its group only by the `activate`
  of a migration that was begun, then frozen and then verified; all versions differ.
* `begin_reads_stale_group` — without that condition a migration can start at a group that the
  category has left, and lead to the group that it is in.
-/

open Std Interleaving List Option

namespace TradeCore

inductive MigrationState
  | freezing
  | catchingUp
  | verified
  deriving DecidableEq, Repr

structure CategoryMigration where
  categoryId : ℕ
  routeVersion : ℕ
  fromGroup : ℕ
  toGroup : ℕ
  state : MigrationState
  frozenIndex : ℕ
  targetIndex : ℕ
  fingerprint : ℕ
  deriving DecidableEq, Repr

/-- The fenced category migrations: `version` is an `AtomicU64`. -/
structure RouteControlPlane where
  groupCount : ℕ
  pins : ExtTreeMap ℕ ℕ
  migrations : ExtTreeMap ℕ CategoryMigration
  version : ℕ

namespace RouteControlPlane

/-- A control plane without migrations; `none` stands for a failed assertion. -/
def new (groupCount : ℕ) (pins : ExtTreeMap ℕ ℕ) : Option RouteControlPlane :=
  if 0 < groupCount ∧ pins.toList.all fun pin => pin.2 < groupCount then
    some ⟨groupCount, pins, ∅, 1⟩
  else none

variable (p : RouteControlPlane)

def groupFor (category : ℕ) : ℕ :=
  p.pins[category]?.getD (category % p.groupCount)

def active (category : ℕ) : Option CategoryMigration :=
  p.migrations[category]?

def accepts (category : ℕ) : Bool :=
  (p.active category).isNone

/-- Write a migration. -/
def put (category : ℕ) (migration : CategoryMigration) : RouteControlPlane :=
  { p with migrations := p.migrations.insert category migration }

/-- Remove a migration. -/
def drop (category : ℕ) : RouteControlPlane :=
  { p with migrations := p.migrations.erase category }

/-- Pin a category to a group. -/
def pin (category group : ℕ) : RouteControlPlane :=
  { p with pins := p.pins.insert category group }

/-- The `fetch_add` of the version, with the version that the caller makes of it. -/
def nextVersion : ℕ × RouteControlPlane :=
  let version := (p.version + 1) % 2 ^ 64
  (version, { p with version := version })

/-- `begin` up to the migrations lock: the group it reads from the pins. -/
def beginRoute (category toGroup : ℕ) : Except String ℕ :=
  if p.groupCount ≤ toGroup then .error s!"target group {toGroup} is out of range"
  else if p.groupFor category = toGroup then .error "category already belongs to target group"
  else .ok (p.groupFor category)

/-- `begin` under the migrations lock: is there a migration already? -/
def beginVacant (category : ℕ) : Except String Unit :=
  if (p.active category).isSome then .error "category migration already active" else .ok ()

/-- The last step of `begin`: draw a version and write the migration. -/
def beginInsert (category toGroup fromGroup : ℕ) : CategoryMigration × RouteControlPlane :=
  let (version, p) := p.nextVersion
  let migration := ⟨category, version, fromGroup, toGroup, .freezing, 0, 0, 0⟩
  (migration, p.put category migration)

def frozen (category index : ℕ) : Except String CategoryMigration × RouteControlPlane :=
  match p.active category with
  | none => (.error "category migration is not active", p)
  | some migration =>
    if migration.state ≠ .freezing ∨ index = 0 then
      (.error "migration is not waiting for a valid freeze index", p)
    else
      let migration := { migration with frozenIndex := index, state := .catchingUp }
      (.ok migration, p.put category migration)

def caughtUp (category targetIndex sourceFingerprint targetFingerprint : ℕ) :
    Except String CategoryMigration × RouteControlPlane :=
  match p.active category with
  | none => (.error "category migration is not active", p)
  | some migration =>
    if migration.state ≠ .catchingUp ∨ targetIndex < migration.frozenIndex then
      (.error "target has not caught up to the freeze index", p)
    else if sourceFingerprint ≠ targetFingerprint then
      (.error "source/target matching fingerprints differ", p)
    else
      let migration := { migration with
        targetIndex := targetIndex, fingerprint := sourceFingerprint, state := .verified }
      (.ok migration, p.put category migration)

/-- `activate` under the migrations lock: the verified migration. -/
def activateVerified (category : ℕ) : Except String CategoryMigration :=
  match p.active category with
  | none => .error "category migration is not active"
  | some migration =>
    if migration.state ≠ .verified then .error "migration fingerprint is not verified"
    else .ok migration

/-- `activate` under both locks: pin the category and end its migration. -/
def activateMove (category toGroup : ℕ) : RouteControlPlane :=
  (p.pin category toGroup).drop category

def abort (category : ℕ) : Bool × RouteControlPlane :=
  ((p.active category).isSome, p.drop category)

end RouteControlPlane

/-! ### Callers -/

inductive RouteCall
  | begin (category toGroup : ℕ)
  | frozen (category index : ℕ)
  | caughtUp (category targetIndex sourceFingerprint targetFingerprint : ℕ)
  | activate (category : ℕ)
  | abort (category : ℕ)
  | groupFor (category : ℕ)
  | accepts (category : ℕ)
  | active (category : ℕ)
  deriving DecidableEq, Repr

def RouteCall.category : RouteCall → ℕ
  | .begin category _ | .frozen category _ | .caughtUp category _ _ _ | .activate category
  | .abort category | .groupFor category | .accepts category | .active category => category

inductive RouteReply
  | migration (result : Except String CategoryMigration)
  | version (result : Except String ℕ)
  | aborted (result : Bool)
  | group (result : ℕ)
  | accepted (result : Bool)
  | current (result : Option CategoryMigration)

/-- The call has changed a migration. -/
def RouteReply.changes : RouteReply → Bool
  | .migration (.ok _) | .version (.ok _) | .aborted true => true
  | _ => false

/-- The version that a successful `begin` or `activate` returns. -/
def issuedVersion : RouteCall × RouteReply → Option ℕ
  | (.begin _ _, .migration (.ok migration)) => some migration.routeVersion
  | (.activate _, .version (.ok version)) => some version
  | _ => none

/-- Where a caller stands. -/
inductive RoutePc
  | idle
  /-- In `begin`: the group is read, the migrations lock comes next. -/
  | beginRouted (category toGroup fromGroup : ℕ)
  /-- In `begin`, holding the migrations: the version comes next. -/
  | beginVacant (category toGroup fromGroup : ℕ)
  /-- In `activate`, holding the migrations: the pins lock comes next. -/
  | activateVerified (category : ℕ) (migration : CategoryMigration)
  /-- In `activate`, holding the migrations: the version comes next. -/
  | activateMoved (category : ℕ)
  deriving DecidableEq

/-- The category for which a caller in `begin` has read the group and waits. -/
def RoutePc.routing : RoutePc → Option ℕ
  | .beginRouted c _ _ => some c
  | _ => none

/-- The category that the next step of a caller moves. -/
def RoutePc.moving : RoutePc → Option ℕ
  | .activateVerified c _ => some c
  | _ => none

/-- The next step of a caller draws a version. -/
def RoutePc.draws : RoutePc → Bool
  | .beginVacant _ _ _ | .activateMoved _ => true
  | _ => false

/-- The control plane, the caller that holds the migrations from one step to the next, and the
calls that have returned, newest first. -/
structure Control (ι : Type) where
  plane : RouteControlPlane
  holder : Option ι
  log : List (RouteCall × RouteReply)

namespace Control

variable {ι : Type}

/-- The calls on a category that changed its migration, newest first. -/
def history (s : Control ι) (category : ℕ) : List RouteCall :=
  (s.log.filter fun e => e.1.category = category ∧ e.2.changes).map Prod.fst

/-- The versions that were given out, newest first. -/
def issued (s : Control ι) : List ℕ := s.log.filterMap issuedVersion

/-- A call returns. -/
def returns (s : Control ι) (call : RouteCall) (reply : RouteReply) : Control ι × RoutePc :=
  ({ s with log := (call, reply) :: s.log }, .idle)

/-- A call that takes the migrations lock for one step: it waits while a caller holds it. -/
def locked (s : Control ι) (call : RouteCall) (reply : RouteReply) (plane : RouteControlPlane) :
    Option (Control ι × RoutePc) :=
  if s.holder.isNone then some ({ s with plane := plane }.returns call reply) else none

/-- One step of a caller: the call it starts if it is idle, the next step of its call if not. -/
def step (i : ι) (s : Control ι) : RoutePc → RouteCall → Option (Control ι × RoutePc)
  | .idle, .begin category toGroup =>
    match s.plane.beginRoute category toGroup with
    | .error e => some (s.returns (.begin category toGroup) (.migration (.error e)))
    | .ok fromGroup => some (s, .beginRouted category toGroup fromGroup)
  | .beginRouted category toGroup fromGroup, _ =>
    match s.plane.beginVacant category with
    | .error e => s.locked (.begin category toGroup) (.migration (.error e)) s.plane
    | .ok _ =>
      if s.holder.isNone then
        some ({ s with holder := some i }, .beginVacant category toGroup fromGroup)
      else none
  | .beginVacant category toGroup fromGroup, _ =>
    let (migration, plane) := s.plane.beginInsert category toGroup fromGroup
    some ({ s with plane := plane, holder := none }.returns (.begin category toGroup)
      (.migration (.ok migration)))
  | .idle, .frozen category index =>
    let (result, plane) := s.plane.frozen category index
    s.locked (.frozen category index) (.migration result) plane
  | .idle, .caughtUp category targetIndex source target =>
    let (result, plane) := s.plane.caughtUp category targetIndex source target
    s.locked (.caughtUp category targetIndex source target) (.migration result) plane
  | .idle, .activate category =>
    match s.plane.activateVerified category with
    | .error e => s.locked (.activate category) (.version (.error e)) s.plane
    | .ok migration =>
      if s.holder.isNone then
        some ({ s with holder := some i }, .activateVerified category migration)
      else none
  | .activateVerified category migration, _ =>
    some ({ s with plane := s.plane.activateMove category migration.toGroup },
      .activateMoved category)
  | .activateMoved category, _ =>
    let (version, plane) := s.plane.nextVersion
    some ({ s with plane := plane, holder := none }.returns (.activate category)
      (.version (.ok version)))
  | .idle, .abort category =>
    let (result, plane) := s.plane.abort category
    s.locked (.abort category) (.aborted result) plane
  | .idle, .groupFor category =>
    some (s.returns (.groupFor category) (.group (s.plane.groupFor category)))
  | .idle, .accepts category =>
    s.locked (.accepts category) (.accepted (s.plane.accepts category)) s.plane
  | .idle, .active category =>
    s.locked (.active category) (.current (s.plane.active category)) s.plane

end Control

/-! ### What an operation changes -/

namespace RouteControlPlane

variable (p : RouteControlPlane) (category c group : ℕ) (migration : CategoryMigration)

@[simp] theorem active_put :
    (p.put category migration).active c = if category = c then some migration else p.active c := by
  simp [active, put, ExtTreeMap.getElem?_insert]

@[simp] theorem active_drop :
    (p.drop category).active c = if category = c then none else p.active c := by
  simp [active, drop, ExtTreeMap.getElem?_erase]

@[simp] theorem active_pin : (p.pin category group).active c = p.active c := rfl

@[simp] theorem active_nextVersion : p.nextVersion.2.active c = p.active c := rfl

@[simp] theorem groupFor_put : (p.put category migration).groupFor c = p.groupFor c := rfl

@[simp] theorem groupFor_drop : (p.drop category).groupFor c = p.groupFor c := rfl

@[simp] theorem groupFor_pin :
    (p.pin category group).groupFor c = if category = c then group else p.groupFor c := by
  simp only [groupFor, pin, ExtTreeMap.getElem?_insert, Std.compare_eq_iff_eq]
  split <;> rfl

@[simp] theorem groupFor_nextVersion : p.nextVersion.2.groupFor c = p.groupFor c := rfl

/-- Every category belongs to a group that exists. -/
def InRange : Prop := ∀ c, p.groupFor c < p.groupCount

theorem spec_new {pins : ExtTreeMap ℕ ℕ} {groupCount : ℕ} {p : RouteControlPlane}
    (h : new groupCount pins = some p) :
    p.InRange ∧ p.version = 1 ∧ ∀ c, p.active c = none := by
  rw [new] at h
  split at h
  case isTrue hok =>
    cases h
    refine ⟨fun c => ?_, rfl, fun c => ExtTreeMap.getElem?_empty⟩
    rw [groupFor]
    cases hc : pins[c]? with
    | none => exact Nat.mod_lt _ hok.1
    | some g =>
      have hpin := List.all_eq_true.mp hok.2 (c, g)
        (ExtTreeMap.mem_toList_iff_getElem?_eq_some.mpr hc)
      exact of_decide_eq_true hpin
  case isFalse => cases h

end RouteControlPlane

namespace Control

open RouteControlPlane (activateMove active_put beginInsert groupFor_drop groupFor_pin active_drop
  spec_new)

variable {ι : Type} {i : ι} {s s' : Control ι} {pc pc' : RoutePc} {call : RouteCall}

/-- What a step of a caller can do to the control plane and to its own place. -/
inductive Effect (i : ι) (s : Control ι) : RoutePc → RouteCall → Control ι → RoutePc → Prop
  /-- A query or a refused call returns. -/
  | refuse {pc : RoutePc} {call : RouteCall}
      (hpc : pc = .idle ∨ ∃ c tgt g, pc = .beginRouted c tgt g) (asked : RouteCall)
      (reply : RouteReply) (hreply : reply.changes = false)
      (hissued : issuedVersion (asked, reply) = none) :
      Effect i s pc call { s with log := (asked, reply) :: s.log } .idle
  | route (c tgt : ℕ) (hto : tgt < s.plane.groupCount) (hne : s.plane.groupFor c ≠ tgt) :
      Effect i s .idle (.begin c tgt) s (.beginRouted c tgt (s.plane.groupFor c))
  | claim {call : RouteCall} (c tgt g : ℕ) (hfree : s.holder = none)
      (hvacant : s.plane.active c = none) :
      Effect i s (.beginRouted c tgt g) call { s with holder := some i } (.beginVacant c tgt g)
  | insert {call : RouteCall} (c tgt g : ℕ) :
      Effect i s (.beginVacant c tgt g) call
        { s with
          plane := (s.plane.beginInsert c tgt g).2
          holder := none
          log := (.begin c tgt, .migration (.ok (s.plane.beginInsert c tgt g).1)) :: s.log } .idle
  | freeze (c index : ℕ) (m : CategoryMigration) (hfree : s.holder = none)
      (hactive : s.plane.active c = some m) (hstate : m.state = .freezing) (hindex : index ≠ 0) :
      Effect i s .idle (.frozen c index)
        { s with
          plane := s.plane.put c { m with frozenIndex := index, state := .catchingUp }
          log := (.frozen c index,
            .migration (.ok { m with frozenIndex := index, state := .catchingUp })) :: s.log } .idle
  | verify (c index fingerprint : ℕ) (m : CategoryMigration) (hfree : s.holder = none)
      (hactive : s.plane.active c = some m) (hstate : m.state = .catchingUp)
      (hindex : m.frozenIndex ≤ index) :
      Effect i s .idle (.caughtUp c index fingerprint fingerprint)
        { s with
          plane := s.plane.put c
            { m with targetIndex := index, fingerprint := fingerprint, state := .verified }
          log := (.caughtUp c index fingerprint fingerprint, .migration (.ok
            { m with targetIndex := index, fingerprint := fingerprint, state := .verified })) ::
              s.log } .idle
  | hold (c : ℕ) (m : CategoryMigration) (hfree : s.holder = none)
      (hactive : s.plane.active c = some m) (hstate : m.state = .verified) :
      Effect i s .idle (.activate c) { s with holder := some i } (.activateVerified c m)
  | move {call : RouteCall} (c : ℕ) (m : CategoryMigration) :
      Effect i s (.activateVerified c m) call
        { s with plane := s.plane.activateMove c m.toGroup } (.activateMoved c)
  | finish {call : RouteCall} (c : ℕ) :
      Effect i s (.activateMoved c) call
        { s with
          plane := s.plane.nextVersion.2
          holder := none
          log := (.activate c, .version (.ok s.plane.nextVersion.1)) :: s.log } .idle
  | abort (c : ℕ) (hfree : s.holder = none) :
      Effect i s .idle (.abort c)
        { s with
          plane := s.plane.drop c
          log := (.abort c, .aborted (s.plane.active c).isSome) :: s.log } .idle

/-- A call that takes the migrations for one step returns, and nobody held them. -/
theorem locked_eq_some {reply : RouteReply} {plane : RouteControlPlane}
    (h : s.locked call reply plane = some (s', pc')) :
    s.holder = none ∧ s' = { s with plane := plane, log := (call, reply) :: s.log } ∧
      pc' = .idle := by
  rw [locked] at h
  split at h
  case isTrue hfree =>
    cases h
    exact ⟨isNone_iff_eq_none.mp hfree, rfl, rfl⟩
  case isFalse => cases h

theorem effect_of_locked (hpc : pc = .idle ∨ ∃ c tgt g, pc = .beginRouted c tgt g)
    {asked : RouteCall} {reply : RouteReply} (h : s.locked asked reply s.plane = some (s', pc'))
    (hreply : reply.changes = false) (hissued : issuedVersion (asked, reply) = none) :
    Effect i s pc call s' pc' := by
  obtain ⟨-, rfl, rfl⟩ := locked_eq_some h
  exact .refuse hpc asked reply hreply hissued

/-- **The steps of a caller.** -/
theorem effect_of_step (h : s.step i pc call = some (s', pc')) : Effect i s pc call s' pc' := by
  cases pc with
  | idle =>
    cases call with
    | begin c tgt =>
      rw [step, RouteControlPlane.beginRoute] at h
      split at h
      case h_1 e he =>
        cases h
        exact .refuse (.inl rfl) _ _ rfl rfl
      case h_2 g hg =>
        split at hg
        · cases hg
        · split at hg
          · cases hg
          · cases hg
            cases h
            exact .route c tgt (by omega) ‹_›
    | frozen c index =>
      rw [step, RouteControlPlane.frozen] at h
      cases hactive : s.plane.active c with
      | none =>
        rw [hactive] at h
        exact effect_of_locked (.inl rfl) h rfl rfl
      | some m =>
        simp only [hactive] at h
        split at h
        case isTrue => exact effect_of_locked (.inl rfl) h rfl rfl
        case isFalse hok =>
          obtain ⟨hfree, rfl, rfl⟩ := locked_eq_some h
          exact .freeze c index m hfree hactive (by_contra fun hne => hok (.inl hne))
            fun h0 => hok (.inr h0)
    | caughtUp c index source target =>
      rw [step, RouteControlPlane.caughtUp] at h
      cases hactive : s.plane.active c with
      | none =>
        rw [hactive] at h
        exact effect_of_locked (.inl rfl) h rfl rfl
      | some m =>
        simp only [hactive] at h
        split at h
        case isTrue => exact effect_of_locked (.inl rfl) h rfl rfl
        case isFalse hok =>
          split at h
          case isTrue => exact effect_of_locked (.inl rfl) h rfl rfl
          case isFalse heq =>
            obtain rfl := not_not.mp heq
            obtain ⟨hfree, rfl, rfl⟩ := locked_eq_some h
            exact .verify c index source m hfree hactive
              (by_contra fun hne => hok (.inl hne))
              (Nat.le_of_not_lt fun hlt => hok (.inr hlt))
    | activate c =>
      rw [step, RouteControlPlane.activateVerified] at h
      cases hactive : s.plane.active c with
      | none =>
        rw [hactive] at h
        exact effect_of_locked (.inl rfl) h rfl rfl
      | some m =>
        simp only [hactive] at h
        split at h
        case h_1 e he => exact effect_of_locked (.inl rfl) h rfl rfl
        case h_2 m' hm' =>
          split at hm'
          case isTrue => cases hm'
          case isFalse hstate =>
            cases hm'
            split at h
            case isTrue hfree =>
              cases h
              exact .hold c m (isNone_iff_eq_none.mp hfree) hactive
                (not_not.mp hstate)
            case isFalse => cases h
    | abort c =>
      obtain ⟨hfree, rfl, rfl⟩ := locked_eq_some h
      exact .abort c hfree
    | groupFor c =>
      cases h
      exact .refuse (.inl rfl) _ _ rfl rfl
    | accepts c => exact effect_of_locked (.inl rfl) h rfl rfl
    | active c => exact effect_of_locked (.inl rfl) h rfl rfl
  | beginRouted c tgt g =>
    rw [step, RouteControlPlane.beginVacant] at h
    split at h
    case h_1 e he => exact effect_of_locked (.inr ⟨c, tgt, g, rfl⟩) h rfl rfl
    case h_2 hok =>
      split at hok
      case isTrue => cases hok
      case isFalse hvacant =>
        split at h
        case isTrue hfree =>
          cases h
          exact .claim c tgt g (isNone_iff_eq_none.mp hfree)
            (not_isSome_iff_eq_none.mp hvacant)
        case isFalse => cases h
  | beginVacant c tgt g =>
    cases h
    exact .insert c tgt g
  | activateVerified c m =>
    cases h
    exact .move c m
  | activateMoved c =>
    cases h
    exact .finish c

/-! ### The fence -/

/-- What the calls on a category say about its migration: since it was begun it has been frozen
at its freeze index, and then found caught up with that index and with one fingerprint, as far
as its state claims. -/
def Earned (c : ℕ) (m : CategoryMigration) (history : List RouteCall) : Prop :=
  match m.state with
  | .freezing => ∃ older, history = .begin c m.toGroup :: older
  | .catchingUp => 0 < m.frozenIndex ∧
      ∃ older, history = .frozen c m.frozenIndex :: .begin c m.toGroup :: older
  | .verified => 0 < m.frozenIndex ∧ m.frozenIndex ≤ m.targetIndex ∧
      ∃ older, history = .caughtUp c m.targetIndex m.fingerprint m.fingerprint ::
        .frozen c m.frozenIndex :: .begin c m.toGroup :: older

/-- What a caller relies on between two of its steps. -/
def At (i : ι) (s : Control ι) : RoutePc → Prop
  | .idle => s.holder ≠ some i
  | .beginRouted _ tgt g => s.holder ≠ some i ∧
      tgt < s.plane.groupCount ∧ g < s.plane.groupCount ∧ g ≠ tgt
  | .beginVacant c tgt g => (s.holder = some i ∧ s.plane.active c = none) ∧
      tgt < s.plane.groupCount ∧ g < s.plane.groupCount ∧ g ≠ tgt
  | .activateVerified c m => s.holder = some i ∧ s.plane.active c = some m ∧ m.state = .verified
  | .activateMoved c => s.holder = some i ∧ s.plane.active c = none

/-- The versions given out count up from 2. -/
structure Counted (s : Control ι) : Prop where
  version : s.plane.version = (s.issued.length + 1) % 2 ^ 64
  issued : s.issued = ((List.range s.issued.length).map fun k => (k + 2) % 2 ^ 64).reverse

/-- Every category has a group, every migration leads from one group to another and has earned
its state, and the versions are counted. -/
structure Fenced (s : Control ι) : Prop where
  inRange : s.plane.InRange
  route : ∀ c m, s.plane.active c = some m →
    m.fromGroup < s.plane.groupCount ∧ m.toGroup < s.plane.groupCount ∧ m.fromGroup ≠ m.toGroup
  earned : ∀ c m, s.plane.active c = some m → Earned c m (s.history c)
  counted : s.Counted

theorem history_cons (s : Control ι) (plane : RouteControlPlane) (holder : Option ι)
    (call : RouteCall) (reply : RouteReply) (c : ℕ) :
    history ⟨plane, holder, (call, reply) :: s.log⟩ c =
      if call.category = c ∧ reply.changes then call :: s.history c else s.history c := by
  by_cases h : call.category = c ∧ reply.changes = true
  · simp [history, h]
  · simp only [history, if_neg h]
    rw [filter_cons_of_neg (by simpa using h)]

theorem Counted.same (h : s.Counted) (hversion : s'.plane.version = s.plane.version)
    (hissued : s'.issued = s.issued) : s'.Counted := by
  refine ⟨?_, ?_⟩
  · rw [hversion, hissued, h.version]
  · rw [hissued]
    exact h.issued

theorem Counted.next (h : s.Counted) (hversion : s'.plane.version = (s.plane.version + 1) % 2 ^ 64)
    (hissued : s'.issued = s'.plane.version :: s.issued) : s'.Counted := by
  have hnext : s'.plane.version = (s.issued.length + 2) % 2 ^ 64 := by
    rw [hversion, h.version]
    omega
  refine ⟨?_, ?_⟩
  · rw [hissued, length_cons, hnext]
  · rw [hissued, length_cons, range_succ, map_append, reverse_append, hnext, ← h.issued]
    rfl

/-- Fewer than `2 ^ 64 + 1` versions do not repeat. -/
theorem Counted.nodup (h : s.Counted) (hle : s.issued.length ≤ 2 ^ 64) : s.issued.Nodup := by
  rw [h.issued, nodup_reverse]
  refine List.Nodup.map_on (fun k hk l hl heq => ?_) nodup_range
  rw [mem_range] at hk hl
  omega

/-- A step that changes one category keeps the fence if it does there. -/
theorem Fenced.change (hs : s.Fenced) (c : ℕ)
    (hcount : s'.plane.groupCount = s.plane.groupCount) (hinRange : s'.plane.InRange)
    (hothers : ∀ c' ≠ c, s'.plane.active c' = s.plane.active c' ∧ s'.history c' = s.history c')
    (hmigration : ∀ m, s'.plane.active c = some m →
      (m.fromGroup < s.plane.groupCount ∧ m.toGroup < s.plane.groupCount ∧
        m.fromGroup ≠ m.toGroup) ∧ Earned c m (s'.history c))
    (hcounted : s'.Counted) : s'.Fenced := by
  refine ⟨hinRange, fun c' m hm => ?_, fun c' m hm => ?_, hcounted⟩
  · rw [hcount]
    by_cases hc : c' = c
    · subst hc
      exact (hmigration m hm).1
    · rw [(hothers c' hc).1] at hm
      exact hs.route c' m hm
  · by_cases hc : c' = c
    · subst hc
      exact (hmigration m hm).2
    · rw [(hothers c' hc).1] at hm
      rw [(hothers c' hc).2]
      exact hs.earned c' m hm

section

variable (h : Effect i s pc call s' pc') (hat : At i s pc)
include h hat

/-- A caller that changes the migrations or their holder is the only one to hold them. -/
theorem Effect.apart :
    s'.plane.groupCount = s.plane.groupCount ∧
    ((s'.plane = s.plane ∧ s'.holder = s.holder) ∨
      ∀ j ≠ i, s.holder ≠ some j ∧ s'.holder ≠ some j) := by
  have hne : ∀ j, j ≠ i → some i ≠ some j := fun j hj heq => hj (some.inj heq).symm
  cases h with
  | refuse | route => exact ⟨rfl, .inl ⟨rfl, rfl⟩⟩
  | claim c tgt g hfree | hold c m hfree =>
    refine ⟨rfl, .inr fun j hj => ⟨?_, hne j hj⟩⟩
    rw [hfree]
    exact (some_ne_none j).symm
  | insert =>
    refine ⟨rfl, .inr fun j hj => ⟨?_, (some_ne_none j).symm⟩⟩
    rw [hat.1.1]
    exact hne j hj
  | freeze c index m hfree | verify c index fingerprint m hfree | abort c hfree =>
    refine ⟨rfl, .inr fun j _ => ?_⟩
    simp only [hfree]
    exact ⟨(some_ne_none j).symm, (some_ne_none j).symm⟩
  | move =>
    refine ⟨rfl, .inr fun j hj => ?_⟩
    rw [hat.1]
    exact ⟨hne j hj, hne j hj⟩
  | finish =>
    refine ⟨rfl, .inr fun j hj => ⟨?_, (some_ne_none j).symm⟩⟩
    rw [hat.1]
    exact hne j hj

/-- A step keeps what the other callers rely on. -/
theorem Effect.others {j : ι} (hj : j ≠ i) {q : RoutePc} (hq : At j s q) : At j s' q := by
  obtain ⟨hcount, ⟨hplane, hholder⟩ | hapart⟩ := h.apart hat
  · cases q <;> simpa only [At, hplane, hholder] using hq
  · obtain ⟨hold, hnew⟩ := hapart j hj
    cases q with
    | idle => exact hnew
    | beginRouted c tgt g =>
      obtain ⟨-, hroute⟩ := hq
      rw [← hcount] at hroute
      exact ⟨hnew, hroute⟩
    | beginVacant => exact absurd hq.1.1 hold
    | activateVerified => exact absurd hq.1 hold
    | activateMoved => exact absurd hq.1 hold

/-- A step leads a caller to a place where it may rely on what it did. -/
theorem Effect.own (hs : s.Fenced) : At i s' pc' := by
  cases h with
  | refuse hpc =>
    obtain rfl | ⟨c, tgt, g, rfl⟩ := hpc
    · exact hat
    · exact hat.1
  | route c tgt hto hne => exact ⟨hat, hto, hs.inRange c, hne⟩
  | claim c tgt g hfree hvacant => exact ⟨⟨rfl, hvacant⟩, hat.2⟩
  | insert | finish => exact (some_ne_none i).symm
  | freeze | verify | abort => exact hat
  | hold c m hfree hactive hstate => exact ⟨rfl, hactive, hstate⟩
  | move c m =>
    refine ⟨hat.1, ?_⟩
    simp [activateMove]

/-- A step keeps the fence. -/
theorem Effect.fenced (hs : s.Fenced) : s'.Fenced := by
  cases h with
  | refuse hpc call reply hreply hissued =>
    have hsame : ∀ c, history ⟨s.plane, s.holder, (call, reply) :: s.log⟩ c = s.history c :=
      fun c => by rw [history_cons, hreply, if_neg fun h => Bool.noConfusion h.2]
    refine ⟨hs.inRange, hs.route, fun c m hm => ?_, hs.counted.same rfl ?_⟩
    · rw [hsame]
      exact hs.earned c m hm
    · simp [Control.issued, hissued]
  | route | claim | hold => exact ⟨hs.inRange, hs.route, hs.earned, hs.counted.same rfl rfl⟩
  | insert c tgt g =>
    refine hs.change c rfl hs.inRange (fun c' hc => ?_) (fun m hm => ?_) (hs.counted.next rfl rfl)
    · simp [beginInsert, history_cons, RouteCall.category, hc.symm]
    · simp only [beginInsert, active_put, if_true] at hm
      cases hm
      refine ⟨⟨hat.2.2.1, hat.2.1, hat.2.2.2⟩, ?_⟩
      rw [history_cons, if_pos ⟨rfl, rfl⟩]
      exact ⟨_, rfl⟩
  | freeze c index m hfree hactive hstate hindex =>
    refine hs.change c rfl hs.inRange (fun c' hc => ?_) (fun m' hm' => ?_) (hs.counted.same rfl rfl)
    · simp [history_cons, RouteCall.category, hc.symm]
    · simp only [active_put, if_true] at hm'
      cases hm'
      refine ⟨hs.route c m hactive, ?_⟩
      have hbegun := hs.earned c m hactive
      simp only [Earned, hstate] at hbegun
      obtain ⟨older, hbegun⟩ := hbegun
      rw [history_cons, if_pos ⟨rfl, rfl⟩, hbegun]
      exact ⟨pos_of_ne_zero hindex, older, rfl⟩
  | verify c index fingerprint m hfree hactive hstate hindex =>
    refine hs.change c rfl hs.inRange (fun c' hc => ?_) (fun m' hm' => ?_) (hs.counted.same rfl rfl)
    · simp [history_cons, RouteCall.category, hc.symm]
    · simp only [active_put, if_true] at hm'
      cases hm'
      refine ⟨hs.route c m hactive, ?_⟩
      have hfrozen := hs.earned c m hactive
      simp only [Earned, hstate] at hfrozen
      obtain ⟨hpos, older, hfrozen⟩ := hfrozen
      rw [history_cons, if_pos ⟨rfl, rfl⟩, hfrozen]
      exact ⟨hpos, hindex, older, rfl⟩
  | move c m =>
    refine hs.change c rfl (fun c' => ?_) (fun c' hc => ?_) (fun m' hm' => ?_)
      (hs.counted.same rfl rfl)
    · change ((s.plane.pin c m.toGroup).drop c).groupFor c' < s.plane.groupCount
      rw [groupFor_drop, groupFor_pin]
      split
      · exact (hs.route c m hat.2.1).2.1
      · exact hs.inRange c'
    · simp [activateMove, history, hc.symm]
    · simp [activateMove] at hm'
  | finish c =>
    have hvacant : s.plane.nextVersion.2.active c = none := hat.2
    refine hs.change c rfl hs.inRange (fun c' hc => ?_) (fun m hm => ?_) (hs.counted.next rfl rfl)
    · simp [history_cons, RouteCall.category, hc.symm]
    · rw [hvacant] at hm
      cases hm
  | abort c hfree =>
    refine hs.change c rfl hs.inRange (fun c' hc => ?_) (fun m hm => ?_) (hs.counted.same rfl rfl)
    · simp [history_cons, RouteCall.category, hc.symm]
    · simp at hm

end

/-! ### All interleavings -/

/-- Migrations start at the group of their category, and versions have not run out. -/
def Settled (s : Control ι) : Prop :=
  (∀ c m, s.plane.active c = some m → m.fromGroup = s.plane.groupFor c) ∧
    s.issued.length ≤ 2 ^ 64

/-- The group that a caller in `begin` has read is still that of the category. -/
def Fresh (s : Control ι) : RoutePc → Prop
  | .beginRouted c _ g | .beginVacant c _ g => g = s.plane.groupFor c
  | _ => True

theorem Fresh.congr (h : Fresh s pc)
    (hgroup : ∀ c, s'.plane.groupFor c = s.plane.groupFor c) : Fresh s' pc := by
  cases pc with
  | beginRouted c tgt g | beginVacant c tgt g => exact (show g = _ from h).trans (hgroup c).symm
  | idle | activateVerified | activateMoved => trivial

/-- A move of a category is not noticed by callers that have not read its group. -/
theorem Fresh.move (h : Fresh s pc) {cat tgt : ℕ}
    (hrouting : pc.routing ≠ some cat) (hvacant : ∀ t g, pc ≠ .beginVacant cat t g) :
    Fresh ⟨s.plane.activateMove cat tgt, s.holder, s.log⟩ pc := by
  have hgroup : ∀ c, cat ≠ c → (s.plane.activateMove cat tgt).groupFor c = s.plane.groupFor c :=
    fun c hc => by simp [activateMove, hc]
  cases pc with
  | beginRouted c t g =>
    have hc : cat ≠ c := fun heq => hrouting (congrArg some heq.symm)
    exact (show g = _ from h).trans (hgroup c hc).symm
  | beginVacant c t g =>
    have hc : cat ≠ c := fun heq => hvacant t g (by rw [heq])
    exact (show g = _ from h).trans (hgroup c hc).symm
  | idle | activateVerified | activateMoved => trivial

/-- Only the move of an `activate` changes a group. -/
theorem Effect.groupFor (h : Effect i s pc call s' pc') :
    (∃ c m, pc = .activateVerified c m ∧
      s' = ⟨s.plane.activateMove c m.toGroup, s.holder, s.log⟩) ∨
    ∀ c, s'.plane.groupFor c = s.plane.groupFor c := by
  cases h with
  | move c m => exact .inl ⟨c, m, rfl, rfl⟩
  | _ => exact .inr fun _ => rfl

/-- A step of a caller whose group is fresh keeps the migrations settled. -/
theorem Effect.settled (h : Effect i s pc call s' pc') (hat : At i s pc) (hfresh : Fresh s pc)
    (hs : s.Settled) (hroom : pc.draws = true → s.issued.length < 2 ^ 64) :
    s'.Settled ∧ Fresh s' pc' := by
  cases h with
  | refuse hpc call reply hreply hissued =>
    refine ⟨⟨hs.1, ?_⟩, trivial⟩
    have hsame : issued ⟨s.plane, s.holder, (call, reply) :: s.log⟩ = s.issued := by
      simp [Control.issued, hissued]
    rw [hsame]
    exact hs.2
  | route c tgt => exact ⟨hs, rfl⟩
  | claim c tgt g => exact ⟨hs, hfresh⟩
  | insert c tgt g =>
    refine ⟨⟨fun c' m hm => ?_, Nat.succ_le_of_lt (hroom rfl)⟩, trivial⟩
    simp only [beginInsert, active_put] at hm
    split at hm
    case isTrue hc =>
      cases hm
      subst hc
      exact hfresh
    case isFalse => exact hs.1 c' m hm
  | freeze c index m hfree hactive | verify c index fingerprint m hfree hactive =>
    refine ⟨⟨fun c' m' hm' => ?_, hs.2⟩, trivial⟩
    simp only [active_put] at hm'
    split at hm'
    case isTrue hc =>
      cases hm'
      subst hc
      exact hs.1 c m hactive
    case isFalse => exact hs.1 c' m' hm'
  | hold => exact ⟨hs, trivial⟩
  | move c m =>
    refine ⟨⟨fun c' m' hm' => ?_, hs.2⟩, trivial⟩
    simp only [activateMove, active_drop, RouteControlPlane.active_pin] at hm'
    split at hm'
    case isTrue => cases hm'
    case isFalse hc =>
      simp only [activateMove, groupFor_drop, groupFor_pin, if_neg hc]
      exact hs.1 c' m' hm'
  | finish c => exact ⟨⟨hs.1, Nat.succ_le_of_lt (hroom rfl)⟩, trivial⟩
  | abort c =>
    refine ⟨⟨fun c' m hm => ?_, hs.2⟩, trivial⟩
    simp only [active_drop] at hm
    split at hm
    case isTrue => cases hm
    case isFalse => exact hs.1 c' m hm

theorem fenced_of_new {groupCount : ℕ} {pins : ExtTreeMap ℕ ℕ} {plane : RouteControlPlane}
    (hnew : RouteControlPlane.new groupCount pins = some plane) :
    Fenced (⟨plane, none, []⟩ : Control ι) := by
  obtain ⟨hinRange, hversion, hnone⟩ := spec_new hnew
  refine ⟨hinRange, fun c m hm => ?_, fun c m hm => ?_, hversion, rfl⟩
  · rw [hnone] at hm
    cases hm
  · rw [hnone] at hm
    cases hm

variable [DecidableEq ι]

/-- Callers before their first call. -/
def start (plane : RouteControlPlane) : Config ι (Control ι) RoutePc :=
  ⟨⟨plane, none, []⟩, fun _ => .idle⟩

/-- A category is not moved while a `begin` for it has read its group and waits for the
migrations, and the versions have not run out when one is drawn. -/
def Undisturbed (c : Config ι (Control ι) RoutePc) (i : ι) (_ : RouteCall) : Prop :=
  (∀ j, (c.threads i).moving.isSome → (c.threads j).routing ≠ (c.threads i).moving) ∧
    ((c.threads i).draws = true → c.shared.issued.length < 2 ^ 64)

variable {ok : Config ι (Control ι) RoutePc → ι → RouteCall → Prop} {groupCount : ℕ}
  {pins : ExtTreeMap ℕ ℕ} {plane : RouteControlPlane} {c c' : Config ι (Control ι) RoutePc}

/-- **The fence holds in every interleaving**, and every caller may rely on what it did. -/
theorem fenced_of_reachable (hnew : RouteControlPlane.new groupCount pins = some plane)
    (hreach : Reachable step ok (start plane) c) :
    c.shared.Fenced ∧ ∀ j, At j c.shared (c.threads j) := by
  refine hreach.invariant ⟨fenced_of_new hnew, fun j => (some_ne_none j).symm⟩ ?_
  intro c i call s pc _ _ hs hat hstep
  have heffect := effect_of_step hstep
  exact ⟨heffect.fenced (hat i) hs, heffect.own (hat i) hs,
    fun j hj => heffect.others (hat i) hj (hat j)⟩

theorem settled_of_reachable (hnew : RouteControlPlane.new groupCount pins = some plane)
    (hreach : Reachable step Undisturbed (start plane) c) : c.shared.Settled := by
  suffices h : c.shared.Settled ∧ ∀ j : ι, Fresh c.shared (c.threads j) from h.1
  obtain ⟨-, -, hnone⟩ := spec_new hnew
  refine hreach.invariant (L := fun _ => Fresh) ⟨⟨fun cat m hm => ?_, Nat.zero_le _⟩,
    fun _ => trivial⟩ ?_
  · rw [start, hnone] at hm
    cases hm
  intro c i call s pc hc hok hs hfresh hstep
  have heffect := effect_of_step hstep
  have hat := (fenced_of_reachable hnew hc).2
  obtain ⟨hsettled, hown⟩ := heffect.settled (hat i) (hfresh i) hs hok.2
  refine ⟨hsettled, hown, fun j hj => ?_⟩
  obtain ⟨cat, m, hpc, rfl⟩ | hgroup := heffect.groupFor
  · have hholds := hat i
    rw [hpc] at hholds
    refine (hfresh j).move ?_ fun t g hvacant => hj ?_
    · have hrouting := hok.1 j
      rw [hpc] at hrouting
      exact hrouting rfl
    · -- two callers would hold the migrations
      have hother := hat j
      rw [hvacant] at hother
      exact some.inj (hother.1.1.symm.trans hholds.1)
  · exact (hfresh j).congr hgroup

/-- **Fenced migration**: in every interleaving of calls in which no category is moved while a
`begin` for it waits, every migration leads from the group of its category to another group, a
category changes its group only when the `activate` of its migration moves it, after a `begin`, a
successful `frozen` and a successful `caught_up` in this order, and no version is given out
twice. -/
theorem fenced_migration (hnew : RouteControlPlane.new groupCount pins = some plane)
    (hreach : Reachable step Undisturbed (start plane) c) :
    (∀ category m, c.shared.plane.active category = some m →
      m.fromGroup = c.shared.plane.groupFor category ∧
      m.toGroup ≠ c.shared.plane.groupFor category ∧
      m.fromGroup < c.shared.plane.groupCount ∧ m.toGroup < c.shared.plane.groupCount) ∧
    (∀ i call c', c.step step i call = some c' → ∀ category,
      c'.shared.plane.groupFor category ≠ c.shared.plane.groupFor category →
      ∃ m index target fingerprint older, c.threads i = .activateVerified category m ∧
        c.shared.plane.active category = some m ∧
        c'.shared.plane.groupFor category = m.toGroup ∧ 0 < index ∧ index ≤ target ∧
        c.shared.history category = .caughtUp category target fingerprint fingerprint ::
          .frozen category index :: .begin category m.toGroup :: older) ∧
    c.shared.issued.Nodup := by
  obtain ⟨hfenced, hat⟩ := fenced_of_reachable hnew hreach
  obtain ⟨hfrom, hroom⟩ := settled_of_reachable hnew hreach
  refine ⟨fun category m hm => ?_, fun i call c' hstep category hne => ?_,
    hfenced.counted.nodup hroom⟩
  · obtain ⟨hg, hto, hdiff⟩ := hfenced.route category m hm
    have heq := hfrom category m hm
    exact ⟨heq, fun h => hdiff (heq.trans h.symm), hg, hto⟩
  · obtain ⟨s, pc, hnext, rfl⟩ := Config.step_eq_some hstep
    have heffect := effect_of_step hnext
    obtain ⟨cat, m, hpc, rfl⟩ | hgroup := heffect.groupFor
    · have hholds := hat i
      rw [hpc] at hholds
      obtain ⟨-, hactive, hstate⟩ := hholds
      have hmoved : (c.shared.plane.activateMove cat m.toGroup).groupFor category =
          if cat = category then m.toGroup else c.shared.plane.groupFor category := by
        simp [activateMove]
      by_cases hcat : cat = category
      · subst hcat
        have hearned := hfenced.earned cat m hactive
        simp only [Earned, hstate] at hearned
        obtain ⟨hpos, hle, older, hhistory⟩ := hearned
        rw [if_pos rfl] at hmoved
        exact ⟨m, _, _, _, older, hpc, hactive, hmoved, hpos, hle, hhistory⟩
      · rw [if_neg hcat] at hmoved
        exact absurd hmoved hne
    · exact absurd (hgroup category) hne

/-! ### Two operators -/

/-- Four groups without pins. -/
def fourGroups : RouteControlPlane := ⟨4, ∅, ∅, 1⟩

/-- An operator moves category 1 from group 1 to group 3. -/
def migrate (i : Bool) : List (Bool × RouteCall) :=
  [.begin 1 3, .begin 1 3, .begin 1 3, .frozen 1 90, .caughtUp 1 90 7 7, .activate 1, .activate 1,
    .activate 1].map fun call => (i, call)

instance (c : Config Bool (Control Bool) RoutePc) (i : Bool) (call : RouteCall) :
    Decidable (Undisturbed c i call) :=
  inferInstanceAs (Decidable (_ ∧ _))

theorem fenced_migration_fourGroups : ∃ c : Config Bool (Control Bool) RoutePc,
    Reachable step Undisturbed (start fourGroups) c ∧ c.shared.plane.groupFor 1 = 3 ∧
    c.shared.issued = [3, 2] ∧ c.shared.issued.Nodup := by
  have hrun : ((start fourGroups).runIf step Undisturbed (migrate false)).map (fun c =>
      (c.shared.plane.groupFor 1, c.shared.issued)) = some (3, [3, 2]) := by
    decide +kernel
  obtain ⟨c, hc, hfacts⟩ := map_eq_some_iff.mp hrun
  obtain ⟨hgroup, hissued⟩ := Prod.mk.inj hfacts
  have hreach := Reachable.start.runIf hc
  exact ⟨c, hreach, hgroup, hissued,
    (fenced_migration (show RouteControlPlane.new 4 ∅ = some fourGroups from rfl) hreach).2.2⟩

/-- **A `begin` can read a group that is out of date**: two operators begin to move category 1
from group 1 to group 3, the second one does it while the first waits for the migrations, and
then the first one starts a migration from group 1 to group 3 of a category that is in group 3. -/
theorem begin_reads_stale_group : ∃ c : Config Bool (Control Bool) RoutePc, ∃ m,
    RouteControlPlane.new 4 ∅ = some fourGroups ∧
    Reachable step (fun _ _ _ => True) (start fourGroups) c ∧
    c.shared.plane.active 1 = some m ∧ m.fromGroup = 1 ∧ m.toGroup = 3 ∧
    c.shared.plane.groupFor 1 = 3 := by
  have hrun : ((start fourGroups).runIf step (fun _ _ _ => True) ((true, .begin 1 3) ::
      migrate false ++ [(true, .begin 1 3), (true, .begin 1 3)])).map (fun c =>
        (c.shared.plane.active 1, c.shared.plane.groupFor 1)) =
      some (some ⟨1, 4, 1, 3, .freezing, 0, 0, 0⟩, 3) := by
    decide +kernel
  obtain ⟨c, hc, hfacts⟩ := map_eq_some_iff.mp hrun
  obtain ⟨hactive, hgroup⟩ := Prod.mk.inj hfacts
  exact ⟨c, _, rfl, Reachable.start.runIf hc, hactive, rfl, rfl, hgroup⟩

end Control

end TradeCore
