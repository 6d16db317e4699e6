import DistributedLock.Redis.Steps
import DistributedLock.Lib.Machine
import Mathlib.Logic.Function.Basic

/-!
# Who renews and who releases an entry

Any number of clients, each with its own connection and its own value, call the operations of `DBRedis`; their
commands interleave with each other and with the clock.  The compare and the act of `UpdateExpire` and
`DelKeyValue` are separate commands, so an entry that a `GET` has found may die, and be another client's by the
time the `DEL` or `PEXPIRE` is executed (`deletes_foreign_entry`).

That is the only way: in the runs in which no entry found by a client's `GET` dies before its acting command
(`Lives`), every command leaves the live entries of other values as they are (`foreign_entries_kept`).
-/

set_option linter.unusedSectionVars false

namespace DistributedLock.Redis

open Lib

/-! ## What a command leaves alone -/

/-- The command acts on the entry of `key` whatever its value. -/
def Command.Touches (key : String) : Command → Prop
  | .del k => k = key
  | .pexpire k _ => k = key
  | _ => False

section Leaves

variable {n : ℕ} {now db d : ℤ} {s : Store} {c : Command} {k : String} {e : Entry} {q : DBRedisPc}

/-- A live entry is left as it is, value and lifetime, by every command that does not act on its key. -/
theorem exec_leaves (he : s.live now d k = some e) (hc : c.Touches k → d ≠ db) :
    (exec n now db s c).store d k = some e := by
  have hstore := (Store.live_eq_some.mp he).1
  -- replacing another entry
  have hput : ∀ {key : String} {x : Option Entry}, ¬ (d = db ∧ k = key) → (s.put db key x) d k = some e := by
    intro key x hne
    rw [Store.put, if_neg hne]
    exact hstore
  cases c with
  | select index => simp only [exec]; split <;> exact hstore
  | set key value px =>
    simp only [exec]
    split
    · exact hstore
    · split
      · exact hstore
      · rename_i hnone
        refine hput ?_
        rintro ⟨rfl, rfl⟩
        rw [hnone] at he
        cases he
  | «exists» key => exact hstore
  | get key => simp only [exec]; split <;> exact hstore
  | pexpire key milliseconds =>
    simp only [exec]
    split
    · exact hput fun h => hc h.2.symm h.1
    · exact hstore
  | del key =>
    simp only [exec]
    split
    · exact hput fun h => hc h.2.symm h.1
    · exact hstore

/-- An operation that finds its own entry when it acts leaves the entries of other values alone. -/
theorem step_leaves (hact : q.ActsOn → s.Holds now db q.key q.value) (he : s.live now d k = some e)
    (hne : e.value ≠ q.value) : ((dbRedis n).step .none q now db s).store d k = some e := by
  refine exec_leaves he fun ht => ?_
  rintro rfl
  have hq : q.ActsOn ∧ q.key = k := by
    cases q <;> simp_all [DBRedisPc.command, Command.Touches, DBRedisPc.ActsOn, DBRedisPc.key]
  obtain ⟨hq, rfl⟩ := hq
  exact hne (Store.Holds.value_eq ⟨e, he, rfl⟩ (hact hq))

/-- An operation that goes on does so for the same key and value, on the same database. -/
theorem step_more {fault : Fault} {q' : DBRedisPc} (h : ((dbRedis n).step fault q now db s).resp = .more q') :
    (∀ index, q ≠ .select index) ∧ q'.key = q.key ∧ q'.value = q.value ∧
      ((dbRedis n).step fault q now db s).db = db := by
  have hsel : ∀ index, q ≠ .select index := by
    rintro index rfl
    have hin : DBRedisPc.Inside (.selectDB index) (.select index) := rfl
    exact ((dbRedis_lawful n).more hin h).2 index rfl
  have hdb : ((dbRedis n).step fault q now db s).db = db := by
    refine answer_db fun index hq => ?_
    cases q <;> simp only [DBRedisPc.command, reduceCtorEq] at hq
    exact hsel _ rfl
  refine ⟨hsel, ?_, ?_, hdb⟩
  all_goals
    simp only [dbRedis] at h
    cases q <;> simp only [DBRedisPc.resume] at h <;> (repeat' split at h) <;> cases h <;> rfl

end Leaves

/-! ## Clients -/

/-- The operation is for `value`, or for none. -/
def DBOp.carries (value : String) : DBOp → Bool
  | .selectDB _ => true
  | .setKeyValue _ v _ | .updateExpire _ v _ | .delKeyValue _ v => v = value

structure Clients (ι : Type) where
  now : ℤ
  srv : Store
  conn : ι → ℤ
  pc : ι → Option DBRedisPc

inductive ClientLabel (ι : Type) where
  | tick (t : ℤ)
  | call (i : ι) (op : DBOp)
  | command (i : ι)

/-- The next program point, if the operation goes on. -/
def Resp.pc {Q : Type} : Resp Q → Option Q
  | .more q => some q
  | _ => none

theorem Resp.more_of_pc {Q : Type} {r : Resp Q} {q : Q} (h : r.pc = some q) : r = .more q := by
  cases r with
  | more q' => cases h; rfl
  | done _ => cases h
  | raise _ => cases h

section Machine

variable {ι : Type} [DecidableEq ι]

/-- The client `i`, at the program point `q`, has its command executed. -/
def Clients.execute (n : ℕ) (s : Clients ι) (i : ι) (q : DBRedisPc) : Clients ι :=
  let o := (dbRedis n).step .none q s.now (s.conn i) s.srv
  { s with srv := o.store, conn := Function.update s.conn i o.db, pc := Function.update s.pc i o.resp.pc }

theorem Clients.execute_pc_self (n : ℕ) (s : Clients ι) (i : ι) (q : DBRedisPc) :
    (s.execute n i q).pc i = ((dbRedis n).step .none q s.now (s.conn i) s.srv).resp.pc :=
  Function.update_self _ _ _

/-- The steps: the clock, the call of an operation for the client's own value, and a command. -/
def Clients.next (n : ℕ) (value : ι → String) (s : Clients ι) : ClientLabel ι → Option (Clients ι)
  | .tick t => if s.now ≤ t then some { s with now := t } else none
  | .call i op =>
    if (s.pc i).isNone ∧ op.carries (value i) then
      some { s with pc := Function.update s.pc i (some (DBRedisPc.start op)) }
    else none
  | .command i => (s.pc i).map (s.execute n i)

def clients (n : ℕ) (value : ι → String) : Machine (Clients ι) (ClientLabel ι) where
  init s := ∀ i, s.pc i = none
  next := Clients.next n value

/-- No entry that a client has found, and is about to delete or renew, dies. -/
def Lives (s : Clients ι) : ClientLabel ι → Prop
  | .tick t => ∀ i q e, s.pc i = some q → q.ActsOn → s.srv.live s.now (s.conn i) q.key = some e → t ≤ e.expireAt
  | _ => True

/-! ## The invariant -/

variable {n : ℕ} {value : ι → String} {s s' : Clients ι} {i : ι}

/-- A client works for its own value, and is about to delete or renew its own entry only. -/
structure Honest (value : ι → String) (s : Clients ι) : Prop where
  own : ∀ i q, s.pc i = some q → (∀ index, q ≠ .select index) → q.value = value i
  acting : ∀ i q, s.pc i = some q → q.ActsOn → s.srv.Holds s.now (s.conn i) q.key (value i)

namespace Honest

theorem leaves (h : Honest value s) {q : DBRedisPc} (hq : s.pc i = some q) {d : ℤ} {k : String} {e : Entry}
    (he : s.srv.live s.now d k = some e) (hne : e.value ≠ value i) :
    (s.execute n i q).srv d k = some e := by
  by_cases hsel : ∃ index, q = .select index
  · obtain ⟨index, rfl⟩ := hsel
    exact exec_leaves he fun ht => ht.elim
  · push Not at hsel
    have hval := h.own i q hq hsel
    exact step_leaves (fun ha => hval ▸ h.acting i q hq ha) he (hval ▸ hne)

/-- A step that leaves the program point of the client `j` and the entry it is about to act on. -/
theorem holds_of_kept {t : Clients ι} {j : ι} {q : DBRedisPc}
    (hh : s.srv.Holds s.now (s.conn j) q.key (value j)) (hconn : t.conn j = s.conn j)
    (hkept : ∀ e, s.srv.live s.now (s.conn j) q.key = some e → e.value = value j →
      t.srv.live t.now (s.conn j) q.key = some e) : t.srv.Holds t.now (t.conn j) q.key (value j) := by
  obtain ⟨e, he, hval⟩ := hh
  exact ⟨e, by rw [hconn]; exact hkept e he hval, hval⟩

theorem execute (h : Honest value s) (hv : Function.Injective value) {q : DBRedisPc} (hq : s.pc i = some q) :
    Honest value (s.execute n i q) := by
  -- where the client itself stands after its command
  have hself : ∀ q', (s.execute n i q).pc i = some q' →
      ((dbRedis n).step .none q s.now (s.conn i) s.srv).resp = .more q' := by
    intro q' hq'
    rw [Clients.execute_pc_self] at hq'
    exact Resp.more_of_pc hq'
  have hother : ∀ j, j ≠ i → (s.execute n i q).pc j = s.pc j := fun j hj => Function.update_of_ne hj _ _
  refine ⟨fun j q' hq' hsel => ?_, fun j q' hq' ha => ?_⟩
  · by_cases hj : j = i
    · subst hj
      obtain ⟨hsel', -, hval, -⟩ := step_more (hself q' hq')
      exact hval.trans (h.own j q hq hsel')
    · rw [hother j hj] at hq'
      exact h.own j q' hq' hsel
  · by_cases hj : j = i
    · subst hj
      have hmore := hself q' hq'
      obtain ⟨hsel, -, hval, hdb⟩ := step_more hmore
      have hhold := step_actsOn (by intro v _; simp [Fault.text]) hmore ha
      rw [hval, h.own j q hq hsel] at hhold
      simpa [Clients.execute, hdb] using hhold
    · rw [hother j hj] at hq'
      refine holds_of_kept (h.acting j q' hq' ha) (Function.update_of_ne hj _ _) fun e he hval => ?_
      refine Store.live_eq_some.mpr ⟨h.leaves hq he ?_, (Store.live_eq_some.mp he).2⟩
      exact fun hvi => hj (hv (hval.symm.trans hvi))

theorem step (h : Honest value s) (hv : Function.Injective value) {l : ClientLabel ι} (hok : Lives s l)
    (hs : Clients.next n value s l = some s') : Honest value s' := by
  cases l with
  | tick t =>
    simp only [Clients.next] at hs
    split at hs
    · cases hs
      refine ⟨h.own, fun j q hq ha => holds_of_kept (h.acting j q hq ha) rfl fun e he _ => ?_⟩
      exact Store.live_eq_some.mpr ⟨(Store.live_eq_some.mp he).1, hok j q e hq ha he⟩
    · cases hs
  | call j op =>
    simp only [Clients.next] at hs
    split at hs
    · rename_i hcall
      cases hs
      refine ⟨fun j' q hq hsel => ?_, fun j' q hq ha => ?_⟩
      · by_cases hj : j' = j
        · subst hj
          simp only [Function.update_self, Option.some.injEq] at hq
          subst hq
          have hcarries := hcall.2
          cases op <;> simp_all [DBOp.carries, DBRedisPc.start, DBRedisPc.value]
        · simp only [Function.update_of_ne hj] at hq
          exact h.own j' q hq hsel
      · by_cases hj : j' = j
        · subst hj
          simp only [Function.update_self, Option.some.injEq] at hq
          subst hq
          cases op <;> exact ha.elim
        · simp only [Function.update_of_ne hj] at hq
          exact h.acting j' q hq ha
    · cases hs
  | command j =>
    obtain ⟨q, hq, rfl⟩ := Option.map_eq_some_iff.mp hs
    exact h.execute hv hq

theorem of_reach (hv : Function.Injective value) (h : (clients n value).Reach Lives s) : Honest value s :=
  h.invariant (I := Honest value) (fun _ h₀ => ⟨fun i q hq => by simp [h₀ i] at hq, fun i q hq => by simp [h₀ i] at hq⟩)
    fun _ _ _ _ hi hok hn => hi.step hv hok hn

end Honest

/-- **Foreign entries are kept.**  In every run in which no entry found by a `GET` dies before the command that
acts on it, a command of a client leaves every live entry of another value as it is, and the `SET` of
`SetKeyValue` leaves every live entry as it is. -/
theorem foreign_entries_kept (hv : Function.Injective value) (h : (clients n value).Reach Lives s)
    (hs : (clients n value).next s (.command i) = some s') {d : ℤ} {k : String} {e : Entry}
    (he : s.srv.live s.now d k = some e) :
    (e.value ≠ value i → s'.srv d k = some e) ∧
    (∀ key v expire, s.pc i = some (.set key v expire) → s'.srv d k = some e) := by
  obtain ⟨q, hq, rfl⟩ := Option.map_eq_some_iff.mp hs
  refine ⟨fun hne => (Honest.of_reach hv h).leaves hq he hne, fun key v expire hset => ?_⟩
  rw [hq] at hset
  cases hset
  exact exec_leaves he fun ht => ht.elim

end Machine

/-! ## Two clients -/

/-- Two clients, with the values `1` and `2`. -/
def twoValues (i : Bool) : String := if i then "2" else "1"

theorem twoValues_injective : Function.Injective twoValues := by
  unfold Function.Injective
  decide

def Clients.blank (ι : Type) : Clients ι := ⟨0, fun _ _ => none, fun _ => 0, fun _ => none⟩

/-- The first client sets its entry, and asks for its deletion up to the `GET`. -/
def deleteLabels : List (ClientLabel Bool) :=
  [.call false (.setKeyValue "k" "1" 10), .command false,
    .call false (.delKeyValue "k" "1"), .command false, .command false]

/-- The client `i` is about to send a `DEL`, and the key holds `value`. -/
def aboutToDelete (i : Bool) (value : String) (s : Clients Bool) : Bool :=
  s.pc i = some (.delDel "k" "1") && (s.srv.live s.now 0 "k").any (fun e => e.value = value) && s.conn i = 0

/-- The first client deletes its own entry, and no other. -/
theorem foreign_entries_kept_two : ∃ s : Clients Bool, (clients 16 twoValues).Reach Lives s ∧
    aboutToDelete false "1" s = true ∧ ∀ s', (clients 16 twoValues).next s (.command false) = some s' →
      ∀ d k e, s.srv.live s.now d k = some e → e.value ≠ "1" → s'.srv d k = some e := by
  have hok : ∀ (s : Clients Bool) (l : ClientLabel Bool),
      (match l with
        | .tick _ => false
        | _ => true) = true → Lives s l := by
    intro s l h
    cases l with
    | tick t => cases h
    | call i op => trivial
    | command i => trivial
  obtain ⟨s, hr, hs⟩ := Machine.exists_reach (clients 16 twoValues) deleteLabels (aboutToDelete false "1") hok
    (s := Clients.blank Bool) (fun _ => rfl) (by decide)
  refine ⟨s, hr, hs, fun s' hn d k e he => ?_⟩
  exact (foreign_entries_kept twoValues_injective hr hn he).1

/-- The first client's entry dies after its `GET`, the second client sets its own, and the `DEL` takes it away. -/
theorem deletes_foreign_entry : ¬ ∀ s s' : Clients Bool, (clients 16 twoValues).Reach (fun _ _ => True) s →
    ∀ i, (clients 16 twoValues).next s (.command i) = some s' → ∀ d k e, s.srv.live s.now d k = some e →
      e.value ≠ twoValues i → s'.srv d k = some e := by
  intro hall
  obtain ⟨s, hr, hs⟩ := (clients 16 twoValues).exists_reach_of_decidable (fun _ _ => True)
    (deleteLabels ++ [.tick 11, .call true (.setKeyValue "k" "2" 10), .command true]) (aboutToDelete false "2")
    (s := Clients.blank Bool) (fun _ => rfl) (by decide)
  simp only [aboutToDelete, Bool.and_eq_true, decide_eq_true_eq, Option.any_eq_true] at hs
  obtain ⟨⟨hpc, e, he, hval⟩, hconn⟩ := hs
  have hkept := hall s _ hr false (congrArg (Option.map (s.execute 16 false)) hpc) 0 "k" e he (by rw [hval]; decide)
  have hgone : (s.execute 16 false (.delDel "k" "1")).srv 0 "k" = none := by
    simp [Clients.execute, dbRedis, answer, DBRedisPc.command, exec, hconn, he, Store.put]
  rw [hgone] at hkept
  cases hkept

end DistributedLock.Redis
