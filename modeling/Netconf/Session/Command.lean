import Netconf.Capability.Basic
import Netconf.Tree.Basic

/-!
# Commands of a session

The operations that a session can be asked for, each of which becomes one request to the server.
-/

namespace Netconf

/-- Nodes of a tree. -/
structure Selection where
  /-- The tree. -/
  tree : Tree
  /-- The nodes in order. -/
  nodes : List NodeId
  deriving DecidableEq, Inhabited

/-- The configuration datastores. -/
inductive Datastore where
  /-- The active configuration. -/
  | running
  /-- The configuration after a restart. -/
  | startup
  /-- The configuration being prepared. -/
  | candidate
  deriving DecidableEq, Inhabited

namespace Datastore

/-- The name of a datastore. -/
def name : Datastore → String
  | running => "running"
  | startup => "startup"
  | candidate => "candidate"

/-- The feature that a server must have for a datastore to be used, or written. -/
def feature? (d : Datastore) (write : Bool) : Option Feature :=
  match d with
  | candidate => some .candidate
  | startup => some .startup
  | running => if write then some .writableRunning else none

end Datastore

/-- What a retrieval is limited to. -/
inductive Filter where
  /-- Nothing is left out. -/
  | all
  /-- What the nodes describe. -/
  | subtree (s : Selection)
  /-- What an expression selects. -/
  | xpath (expression : String)
  deriving DecidableEq, Inhabited

/-- Where a configuration is taken from. -/
inductive Source where
  /-- A datastore. -/
  | datastore (d : Datastore)
  /-- A URL. -/
  | url (url : String)
  /-- The nodes themselves. -/
  | config (s : Selection)
  deriving DecidableEq, Inhabited

/-- Where a configuration goes. -/
inductive Target where
  /-- A datastore. -/
  | datastore (d : Datastore)
  /-- A URL. -/
  | url (url : String)
  deriving DecidableEq, Inhabited

/-- The operations of transactions that need no datastore. -/
inductive TransactionStep where
  /-- Prepare to commit. -/
  | prepare
  /-- Commit. -/
  | commit
  /-- Give up. -/
  | abort
  deriving DecidableEq, Inhabited

/-- The name of the operation of a transaction. -/
def TransactionStep.name : TransactionStep → String
  | prepare => "prepare-transaction"
  | commit => "commit-transaction"
  | abort => "abort-transaction"

/-- The operations that a session can be asked for. -/
inductive Command where
  /-- Retrieve configuration and state. -/
  | get (filter : Filter)
  /-- Retrieve configuration. -/
  | getConfig (source : Datastore) (filter : Filter)
  /-- Load nodes into a datastore. -/
  | editConfig (target : Datastore) (config : Selection)
  /-- Load what is at a URL into a datastore. -/
  | editConfigUrl (target : Datastore) (url : String)
  /-- Replace a configuration by another. -/
  | copyConfig (source : Source) (target : Target)
  /-- Delete a configuration. -/
  | deleteConfig (target : Target)
  /-- Lock a datastore. -/
  | lock (target : Datastore)
  /-- Unlock a datastore. -/
  | unlock (target : Datastore)
  /-- Lock the parts of a datastore that expressions select. -/
  | partialLock (selects : List String)
  /-- Give a partial lock back. -/
  | partialUnlock (lockId : Nat)
  /-- Commit the candidate configuration. -/
  | commit
  /-- Commit, to be undone unless confirmed within some seconds. -/
  | confirmedCommit (seconds : Nat)
  /-- Give up the candidate configuration. -/
  | discardChanges
  /-- Validate a configuration. -/
  | validate (source : Source)
  /-- Subscribe to notifications. -/
  | createSubscription (stream : Option String) (filter : Filter) (start stop : Option String)
  /-- Retrieve the streams of notifications. -/
  | getStreams
  /-- Invoke the action at a node. -/
  | action (tree : Tree) (node : NodeId)
  /-- Send the operation at a node. -/
  | rpc (tree : Tree) (node : NodeId)
  /-- Start a transaction. -/
  | startTransaction (target : Datastore)
  /-- Go on with a transaction. -/
  | transaction (step : TransactionStep)
  /-- End the session. -/
  | closeSession
  /-- End another session. -/
  | killSession (sessionId : Nat)
  deriving DecidableEq, Inhabited

/-- What a command brings. -/
inductive Answer where
  /-- It was done. -/
  | done
  /-- The number of a lock. -/
  | lock (lockId : Nat)
  /-- Data, as nodes that stand alone. -/
  | data (s : Selection)
  deriving DecidableEq, Inhabited

end Netconf
