import Torpor.Lab.Daemon

/-!
# Confinement to Namespaces

The tools of the memory ask for access to the namespace that a call names. A call that names
none, or a session with the empty name, is asked nothing, although its key may lie in a
namespace of another session. For every sequence of tool calls of a session with capabilities
the accesses are confined exactly when each call that is asked nothing happens to stay within
what the session holds.

## Main results

* `confined_along_iff`: the exact condition, for every sequence of calls.
* `read_unguarded`: a session reads a key of a namespace that it holds nothing for.
-/

namespace Torpor.Lab

open Atomic Atomic.Program

/-- A tool call with the id of its action and the readings while it runs. -/
structure TimedCall where
  call : ToolCall
  toolActionId : ActionId
  env : ℕ → Env

namespace TimedCall

/-- The namespace that the call names. -/
def ns (c : TimedCall) : Option Text := orNone c.call.arguments.namespace_

/-- The key that the call reads or writes. -/
def fullKey (c : TimedCall) : Option Text :=
  c.call.arguments.key.map fun key => nsKey c.ns (stripNsPrefix c.ns key)

/-- The call of a session, run alone. -/
def run (sha256 : Text → Text) (session : Text) (db : Database) (c : TimedCall) :
    Except DaemonError ToolResult × Database × ℕ :=
  alone (exec sha256) c.env 0 db (executeTool c.call c.toolActionId (some session))

end TimedCall

/-- The database after a call. -/
def callStep (sha256 : Text → Text) (session : Text) (db : Database) (c : TimedCall) :
    Option Database :=
  some (c.run sha256 session db).2.1

/-- The session has an unrevoked capability with an unrevoked chain for the access, whose
scope without trailing slashes is a prefix of the key. -/
def Holds (db : Database) (session op key : Text) : Prop :=
  ∃ row ∈ db.capabilities, row.subject = session ∧ row.revokedAt = none ∧
    ValidChain db.capabilities row.parentCap ∧ opSatisfies row.op op = true ∧
    rstripSlash row.scope <+: key

/-- `memory_read` returns the value of a stored key. -/
def Returns (sha256 : Text → Text) (session : Text) (db : Database) (c : TimedCall)
    (key : Text) : Prop :=
  c.call.tool = .memoryRead ∧ c.fullKey = some key ∧ ∃ row, db.memory.get key = some row ∧
    (c.run sha256 session db).1 = .ok (.value (some row.value))

/-- `memory_list` without a namespace shows a key. -/
def Shows (sha256 : Text → Text) (session : Text) (db : Database) (c : TimedCall)
    (key : Text) : Prop :=
  c.call.tool = .memoryList ∧ c.ns = none ∧ ∃ keys, key ∈ keys ∧
    (c.run sha256 session db).1 = .ok (.keys keys)

/-- `memory_write` changes the row of a key. -/
def Changes (sha256 : Text → Text) (session : Text) (db : Database) (c : TimedCall)
    (key : Text) : Prop :=
  c.call.tool = .memoryWrite ∧
    (c.run sha256 session db).2.1.memory.get key ≠ db.memory.get key

/-- What the call returns, shows or changes of the keys in namespaces, the session holds a
capability for. -/
def Confined (sha256 : Text → Text) (session : Text) (db : Database) (c : TimedCall) : Prop :=
  ∀ key, '/' ∈ key →
    (Returns sha256 session db c key → Holds db session "read".toList key) ∧
    (Shows sha256 session db c key → Holds db session "read".toList key) ∧
    (Changes sha256 session db c key → Holds db session "write".toList key)

/-- The call is asked for access: it names a namespace, and the session has a name. -/
def Asked (session : Text) (c : TimedCall) : Prop := session ≠ [] ∧ c.ns ≠ none

/-- A call that is not asked for access stays, of the keys in namespaces, with what is not
stored, with what it leaves as it is, or with what the session holds a capability for. -/
def Guarded (session : Text) (db : Database) (c : TimedCall) : Prop :=
  match c.call.tool with
  | .memoryRead => Asked session c ∨ ∀ key ∈ c.fullKey, '/' ∈ key →
      (db.memory.get key).isSome = true → Holds db session "read".toList key
  | .memoryWrite => Asked session c ∨ ∀ key ∈ c.fullKey, '/' ∈ key →
      ∀ value ∈ c.call.arguments.value,
        db.memory.get key ≠ some ⟨value, (c.env 0).now, some c.toolActionId⟩ →
        Holds db session "write".toList key
  | .memoryList => session ≠ [] ∨ c.ns ≠ none ∨ ∀ key ∈ db.memory.keys, '/' ∈ key →
      Holds db session "read".toList key
  | _ => True

/-! ### Accesses that are asked for -/

theorem orNone_idem (t : Option Text) : orNone (orNone t) = orNone t := by
  obtain _ | _ | ⟨c, cs⟩ := t <;> rfl

theorem orNone_ne_some_nil (t : Option Text) : orNone t ≠ some [] := by
  obtain _ | _ | ⟨c, cs⟩ := t <;> simp [orNone]

theorem orNone_eq_none_iff {t : Text} : orNone (some t) = none ↔ t = [] := by
  cases t <;> simp [orNone]

theorem orNone_of_ne_nil {t : Text} (h : t ≠ []) : orNone (some t) = some t := by
  cases t with
  | nil => exact absurd rfl h
  | cons c cs => rfl

/-- A denial is recorded without touching the memory, or the record raises. -/
theorem alone_logDenied (sha256 : Text → Text) (env : ℕ → Env) (n : ℕ) (db : Database)
    (subject : Text) : ∃ r after m,
      alone (exec sha256) env n db (logDenied subject) = (r, after, m) ∧
      after.memory = db.memory := by
  generalize hres : alone (exec sha256) env n db (logDenied subject) = res
  simp only [logDenied, newAction, call_bind, alone_use, exec] at hres
  subst hres
  obtain ⟨err, h⟩ | ⟨-, h⟩ := createAction_cases db
    ⟨.capabilityDenied, getLastActionId db (some subject), some subject, none⟩
    (env (n + 1)).toReading
  · rw [h]
    exact ⟨_, _, _, rfl, rfl⟩
  · rw [h]
    exact ⟨_, _, _, rfl, rfl⟩

/-- An access that is asked for is made when it is allowed; otherwise it is denied, and the
memory stays as it is. -/
theorem alone_withAccess {α : Type} (sha256 : Text → Text) (env : ℕ → Env) (n : ℕ)
    (db : Database) {session ns : Option Text} {session' ns' : Text}
    (hsession : orNone session = some session') (hns : orNone ns = some ns') (op : Text)
    (denied : Text → α) (access : Daemon α) :
    ((checkAccess db.capabilities session' op (ns' ++ ['/'])).1 = true ∧
      alone (exec sha256) env n db (withAccess session ns op denied access) =
        alone (exec sha256) env (n + 1) db access) ∨
    ∃ r after m, alone (exec sha256) env n db (withAccess session ns op denied access) =
      (r, after, m) ∧ after.memory = db.memory ∧ (r = .ok (denied (ns' ++ ['/'])) ∨
        ∃ e, r = .error e) := by
  simp only [withAccess, hsession, hns, call_bind, alone_use]
  by_cases hallowed : (checkAccess db.capabilities session' op (ns' ++ ['/'])).1 = true
  · left
    refine ⟨hallowed, ?_⟩
    rw [if_pos (show (exec sha256 _ (.checkAccess session' op (ns' ++ ['/'])) (env n) db).1.1
      = true from hallowed)]
    rfl
  · right
    obtain ⟨r, after, m, hlog, hmemory⟩ := alone_logDenied sha256 env (n + 1) db session'
    rw [if_neg (show ¬ (exec sha256 _ (.checkAccess session' op (ns' ++ ['/'])) (env n)
      db).1.1 = true from hallowed), alone_bind]
    change ∃ r' after' m', andThen (exec sha256) env _
      (alone (exec sha256) env (n + 1) db (logDenied session')) = _ ∧ _
    rw [hlog]
    cases r with
    | ok id => exact ⟨_, _, _, rfl, hmemory, .inl rfl⟩
    | error e => exact ⟨_, _, _, rfl, hmemory, .inr ⟨e, rfl⟩⟩

/-- An access that nobody is asked for is made. -/
theorem withAccess_of_none {α : Type} {session ns : Option Text}
    (h : orNone session = none ∨ orNone ns = none) (op : Text) (denied : Text → α)
    (access : Daemon α) : withAccess session ns op denied access = access := by
  unfold withAccess
  split
  · rename_i hsession hns
    rcases h with h | h <;> simp_all
  · rfl

/-- What a check allows to a session with capabilities, it holds, for every key of the
namespace. -/
theorem holds_of_allowed {db : Database} {session op ns key : Text}
    (hreg : Registered db.capabilities session)
    (hallowed : (checkAccess db.capabilities session op (ns ++ ['/'])).1 = true) :
    Holds db session op (ns ++ '/' :: key) := by
  rcases checkAccess_iff.mp hallowed with hopen | ⟨row, hmem, hauth⟩
  · exact absurd hreg hopen
  · refine ⟨row, hmem, hauth.subject_eq, hauth.live, hauth.chain, hauth.op, ?_⟩
    have hscope := scopeCovers_iff.mp hauth.scope
    have hkey : ns ++ ['/'] <+: ns ++ '/' :: key := ⟨key, by simp⟩
    exact (List.rdropWhile_prefix _ _).trans (hscope.trans hkey)

/-- A key that an unscoped listing shows lies in a readable scope or in no namespace. -/
theorem holds_of_keyAllowed {db : Database} {session key : Text} {scopes : List Text}
    (hscopes : getReadableScopes db.capabilities session = some scopes)
    (hkey : '/' ∈ key) (hallowed : keyAllowed scopes key = true) :
    Holds db session "read".toList key := by
  simp only [keyAllowed, Bool.or_eq_true, List.any_eq_true, decide_eq_true_eq,
    List.isPrefixOf_iff_prefix, List.isEmpty_iff] at hallowed
  rcases hallowed with ⟨scope, hmem, hcovers⟩ | hnot
  · obtain ⟨row, hrow, rfl, hsubject, hlive, hop, hchain⟩ :=
      (mem_getReadableScopes hscopes).mp hmem
    refine ⟨row, hrow, hsubject, hlive, hchain, hop, ?_⟩
    rcases hcovers with (hempty | heq) | hprefix
    · rw [hempty]
      exact List.nil_prefix
    · exact heq ▸ List.prefix_rfl
    · exact (List.rdropWhile_prefix _ _).trans hprefix
  · exact absurd hkey hnot

/-! ### One call -/

section Call

variable {sha256 : Text → Text} {session : Text} {db : Database} {c : TimedCall}

theorem fullKey_of_ns {ns key : Text} (hns : c.ns = some ns) (hkey : c.fullKey = some key) :
    ∃ short, key = ns ++ '/' :: short := by
  obtain ⟨short, -, rfl⟩ := Option.map_eq_some_iff.mp hkey
  cases ns with
  | nil => exact absurd hns (orNone_ne_some_nil _)
  | cons a as => exact ⟨_, by rw [hns]; rfl⟩

/-- A reading. -/
theorem run_memoryRead (htool : c.call.tool = .memoryRead) {key : Text}
    (hkey : c.call.arguments.key = some key) :
    c.run sha256 session db = alone (exec sha256) c.env 0 db
      (withAccess (some session) c.ns "read".toList (.denied "read".toList) do
        let row ← call (.readKey (stripNsPrefix c.ns key) c.ns)
        pure (.value (row.map (·.value)))) := by
  obtain ⟨⟨tool, args⟩, id, env⟩ := c
  obtain rfl : tool = .memoryRead := htool
  simp only at hkey
  simp only [TimedCall.run, executeTool, hkey]
  rfl

theorem run_memoryWrite (htool : c.call.tool = .memoryWrite) {key : Text}
    (hkey : c.call.arguments.key = some key) :
    c.run sha256 session db = alone (exec sha256) c.env 0 db
      (withAccess (some session) c.ns "write".toList (.denied "write".toList) do
        let value ← argument "value".toList c.call.arguments.value
        call (.writeKey (stripNsPrefix c.ns key) value c.toolActionId c.ns)
        pure (.written (nsKey c.ns (stripNsPrefix c.ns key)) value)) := by
  obtain ⟨⟨tool, args⟩, id, env⟩ := c
  obtain rfl : tool = .memoryWrite := htool
  simp only at hkey
  simp only [TimedCall.run, executeTool, hkey]
  rfl

theorem run_memoryList (htool : c.call.tool = .memoryList) (hns : c.ns = none)
    (hsession : session ≠ []) : c.run sha256 session db = alone (exec sha256) c.env 0 db
      (do let keys ← listReadable session
          pure (.keys keys)) := by
  obtain ⟨⟨tool, args⟩, id, env⟩ := c
  obtain rfl : tool = .memoryList := htool
  have hargs : orNone args.namespace_ = none := hns
  simp only [TimedCall.run, executeTool, hargs, orNone_of_ne_nil hsession]

theorem run_memoryList_nameless (htool : c.call.tool = .memoryList) (hns : c.ns = none) :
    (c.run sha256 [] db).1 = .ok (.keys db.memory.keys) := by
  obtain ⟨⟨tool, args⟩, id, env⟩ := c
  obtain rfl : tool = .memoryList := htool
  have hargs : orNone args.namespace_ = none := hns
  have hnone : orNone (some []) = none := rfl
  simp only [TimedCall.run, executeTool, hargs, hnone]
  rw [withAccess_of_none (.inl rfl)]
  rfl

theorem Asked.exists_ns (h : Asked session c) : ∃ ns, c.ns = some ns ∧ orNone c.ns = some ns := by
  obtain ⟨ns, hns⟩ := Option.ne_none_iff_exists'.mp h.2
  exact ⟨ns, hns, by rw [← hns, TimedCall.ns, orNone_idem]⟩

theorem none_of_not_asked (h : ¬ Asked session c) :
    orNone (some session) = none ∨ orNone c.ns = none := by
  by_cases hsession : session = []
  · exact .inl (orNone_eq_none_iff.mpr hsession)
  · refine .inr ?_
    rw [TimedCall.ns, orNone_idem]
    by_contra hns
    exact h ⟨hsession, hns⟩

theorem Returns.holds_of_asked {key : Text} (hreg : Registered db.capabilities session)
    (hasked : Asked session c) (h : Returns sha256 session db c key) :
    Holds db session "read".toList key := by
  obtain ⟨htool, hfull, row, -, hres⟩ := h
  obtain ⟨short, hshort, -⟩ := Option.map_eq_some_iff.mp hfull
  obtain ⟨ns, hns, hns'⟩ := hasked.exists_ns
  rw [run_memoryRead htool hshort] at hres
  obtain ⟨hallowed, -⟩ | ⟨r, after, m, heq, -, hr⟩ := alone_withAccess sha256 c.env 0 db
    (orNone_of_ne_nil hasked.1) hns' "read".toList (ToolResult.denied "read".toList)
    (do let row ← call (.readKey (stripNsPrefix c.ns short) c.ns)
        pure (.value (row.map (·.value))))
  · obtain ⟨rest, rfl⟩ := fullKey_of_ns hns hfull
    exact holds_of_allowed hreg hallowed
  · rw [heq] at hres
    rcases hr with rfl | ⟨e, rfl⟩ <;> cases hres

theorem returns_iff_of_not_asked {key : Text} (htool : c.call.tool = .memoryRead)
    (hasked : ¬ Asked session c) : Returns sha256 session db c key ↔
      c.fullKey = some key ∧ (db.memory.get key).isSome = true := by
  constructor
  · rintro ⟨-, hfull, row, hrow, -⟩
    exact ⟨hfull, by rw [hrow]; rfl⟩
  · rintro ⟨hfull, hstored⟩
    obtain ⟨row, hrow⟩ := Option.isSome_iff_exists.mp hstored
    refine ⟨htool, hfull, row, hrow, ?_⟩
    obtain ⟨short, hshort, rfl⟩ := Option.map_eq_some_iff.mp hfull
    rw [run_memoryRead htool hshort, withAccess_of_none (none_of_not_asked hasked)]
    change Except.ok (ToolResult.value ((readKey db (stripNsPrefix c.ns short) c.ns).map
      (·.value))) = _
    rw [readKey, hrow]
    rfl

/-- The memory after the write that `memory_write` makes once it is allowed. -/
theorem memory_write (sha256 : Text → Text) (env : ℕ → Env) (n : ℕ) (db : Database)
    (value : Option Text) (key : Text) (id : ActionId) (ns : Option Text) :
    (alone (exec sha256) env n db (do
      let value ← argument "value".toList value
      call (.writeKey key value id ns)
      pure (ToolResult.written (nsKey ns key) value))).2.1.memory =
      value.elim db.memory fun value =>
        db.memory.put (nsKey ns key) ⟨value, (env n).now, some id⟩ := by
  cases value <;> rfl

/-- Without a key a write raises an exception. -/
theorem run_memoryWrite_keyless (htool : c.call.tool = .memoryWrite)
    (hkey : c.call.arguments.key = none) : (c.run sha256 session db).2.1 = db := by
  obtain ⟨⟨tool, args⟩, id, env⟩ := c
  obtain rfl : tool = .memoryWrite := htool
  simp only at hkey
  simp only [TimedCall.run, executeTool, hkey]
  rfl

theorem Changes.holds_of_asked {key : Text} (hreg : Registered db.capabilities session)
    (hasked : Asked session c) (h : Changes sha256 session db c key) :
    Holds db session "write".toList key := by
  obtain ⟨htool, hchanged⟩ := h
  obtain ⟨ns, hns, hns'⟩ := hasked.exists_ns
  cases hshort : c.call.arguments.key with
  | none =>
      rw [run_memoryWrite_keyless htool hshort] at hchanged
      exact absurd rfl hchanged
  | some short =>
      have hfull : c.fullKey = some (nsKey c.ns (stripNsPrefix c.ns short)) := by
        rw [TimedCall.fullKey, hshort, Option.map_some]
      rw [run_memoryWrite htool hshort] at hchanged
      obtain ⟨hallowed, heq⟩ | ⟨r, after, m, heq, hmemory, -⟩ :=
        alone_withAccess sha256 c.env 0 db (orNone_of_ne_nil hasked.1) hns' "write".toList
          (ToolResult.denied "write".toList) (do
            let value ← argument "value".toList c.call.arguments.value
            call (.writeKey (stripNsPrefix c.ns short) value c.toolActionId c.ns)
            pure (ToolResult.written (nsKey c.ns (stripNsPrefix c.ns short)) value))
      · rw [heq, memory_write] at hchanged
        cases hvalue : c.call.arguments.value with
        | none =>
            rw [hvalue] at hchanged
            exact absurd rfl hchanged
        | some value =>
            rw [hvalue, Option.elim_some, SortedMap.get_put] at hchanged
            split_ifs at hchanged with hkey
            · obtain ⟨rest, hrest⟩ := fullKey_of_ns hns hfull
              rw [hkey, hrest]
              exact holds_of_allowed hreg hallowed
            · exact absurd rfl hchanged
      · rw [heq] at hchanged
        exact absurd (by rw [hmemory]) hchanged

theorem changes_iff_of_not_asked {key : Text} (htool : c.call.tool = .memoryWrite)
    (hasked : ¬ Asked session c) : Changes sha256 session db c key ↔
      c.fullKey = some key ∧ ∃ value, c.call.arguments.value = some value ∧
        db.memory.get key ≠ some ⟨value, (c.env 0).now, some c.toolActionId⟩ := by
  simp only [Changes, htool, true_and]
  cases hshort : c.call.arguments.key with
  | none =>
      rw [run_memoryWrite_keyless htool hshort]
      simp [TimedCall.fullKey, hshort]
  | some short =>
      rw [run_memoryWrite htool hshort, withAccess_of_none (none_of_not_asked hasked),
        memory_write, TimedCall.fullKey, hshort, Option.map_some, Option.some.injEq]
      cases c.call.arguments.value with
      | none => simp
      | some value =>
          rw [Option.elim_some, SortedMap.get_put]
          split_ifs with hkey
          · subst hkey
            simp [eq_comm]
          · simp [Ne.symm hkey]

theorem Shows.holds_of_named {key : Text} (hreg : Registered db.capabilities session)
    (hsession : session ≠ []) (hkey : '/' ∈ key) (h : Shows sha256 session db c key) :
    Holds db session "read".toList key := by
  obtain ⟨htool, hns, keys, hmem, hres⟩ := h
  rw [run_memoryList htool hns hsession] at hres
  cases hscopes : getReadableScopes db.capabilities session with
  | none =>
      have hcount : db.capabilities.countP (·.subject = session) = 0 := by
        by_contra hne
        rw [getReadableScopes, if_neg hne] at hscopes
        cases hscopes
      exact absurd hreg (countP_eq_zero_iff.mp hcount)
  | some scopes =>
      simp only [listReadable, call_bind, use_bind, alone_use, exec, hscopes] at hres
      simp only [pure_eq, done_bind, alone_done, Except.ok.injEq, ToolResult.keys.injEq]
        at hres
      subst hres
      exact holds_of_keyAllowed hscopes hkey (List.mem_filter.mp hmem).2

theorem shows_iff_of_nameless {key : Text} (htool : c.call.tool = .memoryList)
    (hns : c.ns = none) : Shows sha256 [] db c key ↔ key ∈ db.memory.keys := by
  constructor
  · rintro ⟨-, -, keys, hmem, hres⟩
    rw [run_memoryList_nameless htool hns] at hres
    simp only [Except.ok.injEq, ToolResult.keys.injEq] at hres
    exact hres ▸ hmem
  · intro hmem
    exact ⟨htool, hns, _, hmem, run_memoryList_nameless htool hns⟩

/-- **One call** of a session with capabilities is confined exactly when it is guarded. -/
theorem confined_iff_guarded (hreg : Registered db.capabilities session) :
    Confined sha256 session db c ↔ Guarded session db c := by
  cases htool : c.call.tool with
  | memoryRead =>
      simp only [Guarded, htool]
      constructor
      · intro hconf
        by_cases hasked : Asked session c
        · exact .inl hasked
        · refine .inr fun key hfull hkey hstored => (hconf key hkey).1 ?_
          exact (returns_iff_of_not_asked htool hasked).mpr ⟨hfull, hstored⟩
      · intro hguard key hkey
        refine ⟨fun h => ?_, fun h => absurd (htool.symm.trans h.1) (by decide),
          fun h => absurd (htool.symm.trans h.1) (by decide)⟩
        by_cases hasked : Asked session c
        · exact h.holds_of_asked hreg hasked
        · obtain ⟨hfull, hstored⟩ := (returns_iff_of_not_asked htool hasked).mp h
          exact (hguard.resolve_left hasked) key hfull hkey hstored
  | memoryWrite =>
      simp only [Guarded, htool]
      constructor
      · intro hconf
        by_cases hasked : Asked session c
        · exact .inl hasked
        · refine .inr fun key hfull hkey value hvalue hnew => (hconf key hkey).2.2 ?_
          exact (changes_iff_of_not_asked htool hasked).mpr ⟨hfull, value, hvalue, hnew⟩
      · intro hguard key hkey
        refine ⟨fun h => absurd (htool.symm.trans h.1) (by decide),
        fun h => absurd (htool.symm.trans h.1) (by decide),
          fun h => ?_⟩
        by_cases hasked : Asked session c
        · exact h.holds_of_asked hreg hasked
        · obtain ⟨hfull, value, hvalue, hnew⟩ :=
            (changes_iff_of_not_asked htool hasked).mp h
          exact (hguard.resolve_left hasked) key hfull hkey value hvalue hnew
  | memoryList =>
      simp only [Guarded, htool]
      constructor
      · intro hconf
        by_cases hsession : session = []
        · subst hsession
          by_cases hns : c.ns = none
          · refine .inr (.inr fun key hmem hkey => (hconf key hkey).2.1 ?_)
            exact (shows_iff_of_nameless htool hns).mpr hmem
          · exact .inr (.inl hns)
        · exact .inl hsession
      · intro hguard key hkey
        refine ⟨fun h => absurd (htool.symm.trans h.1) (by decide), fun h => ?_,
          fun h => absurd (htool.symm.trans h.1) (by decide)⟩
        by_cases hsession : session = []
        · subst hsession
          rcases hguard with hne | hns | hall
          · exact absurd rfl hne
          · exact absurd h.2.1 hns
          · exact hall key ((shows_iff_of_nameless htool h.2.1).mp h) hkey
        · exact h.holds_of_named hreg hsession hkey
  | _ =>
      simp only [Guarded, htool, iff_true]
      exact fun key _ => ⟨fun h => absurd (htool.symm.trans h.1) (by simp),
        fun h => absurd (htool.symm.trans h.1) (by simp),
        fun h => absurd (htool.symm.trans h.1) (by simp)⟩

end Call

/-! ### Every sequence of calls -/

/-- A row of a subject is never deleted. -/
theorem registered_exec (sha256 : Text → Text) (subject : Text) (α : Type) (u : Use α)
    (e : Env) (db : Database) (h : Registered db.capabilities subject) :
    Registered (exec sha256 α u e db).2.capabilities subject := by
  cases u with
  | createAction a =>
      obtain ⟨actions, h'⟩ := createAction_eq db a e.toReading
      simpa only [exec, h'] using h
  | insertSnapshot name stateHash actionCount lastActionId state =>
      obtain ⟨snapshots, h'⟩ :=
        insertSnapshot_eq db name stateHash actionCount lastActionId state e.toReading
      simpa only [exec, h'] using h
  | grantCapability subject' op scope issuedBy parentCap =>
      simp only [exec, onCapabilities, grantCapability]
      obtain ⟨row, hmem, hsubject⟩ := h
      split
      · exact ⟨row, hmem, hsubject⟩
      · split
        · exact ⟨row, hmem, hsubject⟩
        · split_ifs
          · exact ⟨row, hmem, hsubject⟩
          · exact ⟨row, List.mem_append_left _ hmem, hsubject⟩
  | revokeCapability capId revokedBy =>
      obtain ⟨f, hf, heq⟩ := CapOperation.IsRevocation.exists_marks
        (o := .revoke capId revokedBy e.now) trivial db.capabilities
      change Registered ((CapOperation.revoke capId revokedBy e.now).apply db.capabilities) _
      rw [heq]
      exact hf.registered_map.mpr h
  | revokePostSnapshotCaps snapshotTimestamp revokedBy =>
      obtain ⟨f, hf, heq⟩ := CapOperation.IsRevocation.exists_marks
        (o := .revokePostSnapshot snapshotTimestamp revokedBy e.now) trivial db.capabilities
      change Registered ((CapOperation.revokePostSnapshot snapshotTimestamp revokedBy
        e.now).apply db.capabilities) _
      rw [heq]
      exact hf.registered_map.mpr h
  | _ => exact h

theorem registered_callStep {sha256 : Text → Text} {session : Text} (db : Database)
    (c : TimedCall) (db' : Database) (h : Registered db.capabilities session)
    (hstep : callStep sha256 session db c = some db') : Registered db'.capabilities session := by
  obtain rfl := Option.some.inj hstep
  have huses : Uses (fun _ _ => True) (executeTool c.call c.toolActionId (some session)) :=
    uses_of_forall (fun _ _ => trivial) _
  exact alone_invariant (fun α u e db' _ => registered_exec sha256 session α u e db') huses h

/-- **Confinement.** For every database, every session with a row in the table of
capabilities and every sequence of its tool calls: the calls are all confined to what the
session holds exactly when each of them is guarded, that is, asked for access or within it
by itself. -/
theorem confined_along_iff {sha256 : Text → Text} {session : Text} {db : Database}
    (hreg : Registered db.capabilities session) (calls : List TimedCall) :
    Machine.Along (callStep sha256 session) (Confined sha256 session) db calls ↔
      Machine.Along (callStep sha256 session) (Guarded session) db calls :=
  Machine.along_congr (fun db c db' h _ => registered_callStep db c db' h)
    (fun _ _ => confined_iff_guarded) hreg calls

/-- A capability of the session `a` for its namespace, and a key in another one. -/
def twoNamespaces : Database :=
  { Database.empty with
    memory := SortedMap.empty.put ['b', '/', 'k'] ⟨['v'], 0, none⟩
    capabilities :=
      [⟨1, none, ['a'], "read_write".toList, ['a', '/'], 0, .named ['s'], none, none⟩] }

/-- A call with a key and a namespace. -/
def keyCall (tool : ToolName) (key : Text) (ns : Option Text) : TimedCall :=
  ⟨⟨tool, ⟨some key, some ['w'], ns, none, none, none, none, none⟩⟩, 7, readingAt⟩

theorem confined_along_iff_twoNamespaces :
    Machine.Along (callStep id ['a']) (Confined id ['a']) twoNamespaces
      [keyCall .memoryWrite ['k'] (some ['a']), keyCall .memoryRead ['k'] (some ['a']),
        keyCall .memoryRead ['k'] (some ['b'])] := by
  have hreg : Registered twoNamespaces.capabilities ['a'] :=
    ⟨_, List.mem_singleton_self _, rfl⟩
  refine (confined_along_iff hreg _).mpr (Machine.along_of_mem ?_ _)
  intro c hc db
  simp only [List.mem_cons, List.not_mem_nil, or_false] at hc
  rcases hc with rfl | rfl | rfl <;>
    exact .inl ⟨by decide, by simp [keyCall, TimedCall.ns, orNone]⟩

/-- A session with a capability for one namespace only reads a key of another one, by naming
it without a namespace. -/
theorem read_unguarded :
    Registered twoNamespaces.capabilities ['a'] ∧
      ¬ Machine.Along (callStep id ['a']) (Confined id ['a']) twoNamespaces
        [keyCall .memoryRead ['b', '/', 'k'] none] := by
  refine ⟨⟨_, List.mem_singleton_self _, rfl⟩, fun hconf => ?_⟩
  have hholds : Holds twoNamespaces ['a'] "read".toList ['b', '/', 'k'] :=
    (hconf.1 ['b', '/', 'k'] (by decide)).1 ⟨rfl, rfl, ⟨['v'], 0, none⟩, rfl, rfl⟩
  obtain ⟨row, hmem, -, -, -, -, hprefix⟩ := hholds
  obtain rfl := List.mem_singleton.mp hmem
  revert hprefix
  decide +kernel

end Torpor.Lab
