import Mathlib.Data.Option.Basic

/- The pool of redis connections of example_redis_test.cpp. What hiredis answers is given
   with each call; a connection is a context with a number of its own. -/
namespace UC.RedisPool

def REDIS_ERRORCODE_POOL_NO_CONNECTION : Int := -5000001
def REDIS_ERRORCODE_SET_ERR : Int := -5100002

/-- redisContext: which one it is, and whether err is set. -/
structure RedisContext where
  id : Nat
  err : Bool
  deriving DecidableEq

inductive Connect where
  | good
  | err
  | NULL
  deriving DecidableEq

/-- HiredisHelper, and behind it the contexts returned so far, those passed to redisFree,
    and how many getConntection has handed out and not got back. -/
structure HiredisHelper where
  m_ctxs : List (Option RedisContext)
  m_poolsize : Int
  m_maxpoolsize : Int
  m_useNum : Int
  created : Nat
  freed : List Nat
  handed : Nat
  deriving DecidableEq

/-- The answer to one SetEx: the connection, should one be made, and whether redisCommand
    returns a reply. -/
structure Call where
  conn : Connect
  reply : Bool

namespace HiredisHelper

def redisConnectWithTimeout (s : HiredisHelper) : Connect → HiredisHelper × Option RedisContext
  | .good => ({ s with created := s.created + 1 }, some ⟨s.created, false⟩)
  | .err => ({ s with created := s.created + 1 }, some ⟨s.created, true⟩)
  | .NULL => (s, none)

def redisFree (s : HiredisHelper) : Option RedisContext → HiredisHelper
  | none => s
  | some ctx => { s with freed := s.freed ++ [ctx.id] }

/-- One round of the loop of connect. -/
def connectOne (s : HiredisHelper) (result : Connect) : HiredisHelper :=
  match s.redisConnectWithTimeout result with
  | (s, ctx) =>
    if ctx.any RedisContext.err then s else { s with m_ctxs := s.m_ctxs ++ [ctx] }

def connectLoop (results : Nat → Connect) : Nat → HiredisHelper → HiredisHelper
  | 0, s => s
  | n + 1, s => (connectLoop results n s).connectOne (results n)

def connect (results : Nat → Connect) (s : HiredisHelper) : HiredisHelper :=
  connectLoop results s.m_poolsize.toNat s

/-- init with any two sizes for those it sets. -/
def initWith (m_poolsize m_maxpoolsize : Int) (results : Nat → Connect) : HiredisHelper :=
  connect results
    { m_ctxs := []
      m_poolsize := m_poolsize
      m_maxpoolsize := m_maxpoolsize
      m_useNum := 0
      created := 0
      freed := []
      handed := 0 }

def init (results : Nat → Connect) : HiredisHelper := initWith 10 100 results

def getConntection (s : HiredisHelper) (result : Connect) :
    HiredisHelper × Option RedisContext :=
  match s.m_ctxs with
  | ctx :: rest =>
    ({ s with
        m_ctxs := rest
        m_useNum := s.m_useNum + 1
        handed := if ctx.isSome then s.handed + 1 else s.handed }, ctx)
  | [] =>
    if s.m_useNum ≥ s.m_maxpoolsize then (s, none)
    else
      match s.redisConnectWithTimeout result with
      | (s, ctx) =>
        if ctx.all RedisContext.err then (s.redisFree ctx, none)
        else ({ s with m_useNum := s.m_useNum + 1, handed := s.handed + 1 }, ctx)

def releaseConnection (s : HiredisHelper) (ctx : Option RedisContext) (active : Bool) :
    HiredisHelper :=
  let s := { s with m_useNum := s.m_useNum - 1 }
  match ctx with
  | none => s
  | some _ =>
    let s := { s with handed := s.handed - 1 }
    if ¬ active then s.redisFree ctx else { s with m_ctxs := s.m_ctxs ++ [ctx] }

def SetEx (s : HiredisHelper) (call : Call) : HiredisHelper × Int :=
  match s.getConntection call.conn with
  | (s, none) => (s, REDIS_ERRORCODE_POOL_NO_CONNECTION)
  | (s, some ctx) =>
    if call.reply then (s.releaseConnection (some ctx) true, 0)
    else (s.releaseConnection (some ctx) false, REDIS_ERRORCODE_SET_ERR)

def step (s : HiredisHelper) (call : Call) : Option HiredisHelper := some (s.SetEx call).1

/-- The loop of the destructor, with i at the front of the queue. -/
def destructLoop : Nat → List (Option RedisContext) → HiredisHelper → HiredisHelper
  | _, [], s => { s with m_ctxs := [] }
  | i, ctx :: rest, s =>
    if i < (ctx :: rest).length then destructLoop (i + 1) rest (s.redisFree ctx)
    else { s with m_ctxs := ctx :: rest }

def destruct (s : HiredisHelper) : HiredisHelper := destructLoop 0 s.m_ctxs s

end HiredisHelper

end UC.RedisPool
