import RelStorage.Cache.Accounting
import RelStorage.Adapters.Chain
import RelStorage.Benchmarks.Trace
