import RagPlatform.Lib.Text

/-! The settings the modelled code reads, with their defaults and their one validator. -/

namespace RagPlatform

open Lib

inductive RerankerChoice
  | none | crossEncoder | fake
  deriving DecidableEq

theorem overlap_lt_target : (60 : Int) < 400 := by decide

structure Settings where
  /-- Required: the source has no default. -/
  jwtSecret : Str := []
  workerMaxRetries : Int := 3
  workerRetryBackoffSeconds : Int := 10
  jwtTtlSeconds : Int := 1800
  rateLimitPerMinute : Int := 120
  rateLimitTokenPerMinute : Int := 20
  maxUploadBytes : Int := 10 * 1024 * 1024
  maxTenantStorageBytes : Int := 500 * 1024 * 1024
  answerMaxTokens : Int := 1024
  priceInputPerMtok : Option Rat := none
  priceOutputPerMtok : Option Rat := none
  embedBatchSize : Int := 64
  chunkTargetTokens : Int := 400
  chunkOverlapTokens : Int := 60
  retrievalKDense : Int := 30
  retrievalKKeyword : Int := 30
  retrievalRrfK : Int := 60
  retrievalTopN : Int := 8
  reranker : RerankerChoice := .none
  chunking : chunkOverlapTokens < chunkTargetTokens := by
    first | exact overlap_lt_target | decide

end RagPlatform
