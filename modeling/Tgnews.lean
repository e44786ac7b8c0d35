import Tgnews.CxxContainersProofs
import Tgnews.CxxTextProofs
import Tgnews.WorkerPoolProofs
import Tgnews.CommonProofs
import Tgnews.DebugProofs
import Tgnews.DictionaryProofs
import Tgnews.FeatParityProofs
import Tgnews.FeatureReadsProofs
import Tgnews.GlobProofs
import Tgnews.LangrecProofs
import Tgnews.LoadProofs
import Tgnews.LogregProofs
import Tgnews.NewsCategoriesProofs
import Tgnews.NewsThreadsProofs
import Tgnews.SerializerProofs
import Tgnews.StagesProofs
import Tgnews.TestTasksProofs
import Tgnews.TopicParityProofs
import Tgnews.CleanTextProofs
import Tgnews.LookupsProofs
import Tgnews.PageProofs
import Tgnews.TsvProofs
import Tgnews.CategoriesTaskProofs
import Tgnews.ForkJoinProofs
import Tgnews.MainProofs
import Tgnews.LinkedTreeProofs
import Tgnews.DomProofs
import Tgnews.DumpProofs
import Tgnews.JsonLexerProofs
import Tgnews.JsonParserProofs
import Tgnews.JsonRoundTripProofs
import Tgnews.Utf8StateTableProofs
import Tgnews.TextProcessingProofs
import Tgnews.LanguageIdProofs
